import Mathlib.Data.List.Induction
import Mathlib.Order.Basic

/-!
# Runs of guarded, fallible transition systems

A system has states, calls and answers. A call may be refused by its guard (the
caller's side of the contract) and may end in a fault instead of an answer. A run
is a finite sequence of guarded calls that all answered; the rules below lift a
fact about one step to every run.
-/
namespace Fomo.Lib

variable {σ γ ε ω φ : Type*}

/-- A guarded transition system whose steps answer or fault. -/
structure System (σ ε ω φ : Type*) where
  guard : σ → ε → Prop
  step : σ → ε → Except φ (σ × ω)

namespace System

/-- `Run S s t s'`: from `s` the calls of the trace `t` are admitted, answer as the
trace says, and end in `s'`. The last call of the trace is the last one made. -/
inductive Run (S : System σ ε ω φ) (s : σ) : List (ε × ω) → σ → Prop
  | nil : Run S s [] s
  | snoc {t s' e w s''} : Run S s t s' → S.guard s' e → S.step s' e = .ok (s'', w) →
      Run S s (t ++ [(e, w)]) s''

def Reachable (S : System σ ε ω φ) (s s' : σ) : Prop := ∃ t, S.Run s t s'

variable {S : System σ ε ω φ} {s s' s'' : σ} {t t' : List (ε × ω)} {e : ε} {w : ω}

theorem Run.reachable (h : S.Run s t s') : S.Reachable s s' := ⟨t, h⟩

theorem Reachable.refl (S : System σ ε ω φ) (s : σ) : S.Reachable s s := ⟨[], .nil⟩

theorem Reachable.step (h : S.Reachable s s') (hg : S.guard s' e)
    (hs : S.step s' e = .ok (s'', w)) : S.Reachable s s'' := by
  obtain ⟨t, ht⟩ := h
  exact ⟨_, ht.snoc hg hs⟩

theorem Run.append (h : S.Run s t s') (h' : S.Run s' t' s'') : S.Run s (t ++ t') s'' := by
  induction h' with
  | nil => simpa using h
  | snoc _ hg hs ih =>
    rw [← List.append_assoc]
    exact ih.snoc hg hs

/-- A run passes through a state after any of its calls. -/
theorem Run.split (h : S.Run s (t ++ t') s'') : ∃ s', S.Run s t s' ∧ S.Run s' t' s'' := by
  induction t' using List.reverseRecOn generalizing s'' with
  | nil => exact ⟨s'', by simpa using h, .nil⟩
  | append_singleton t' x ih =>
    generalize hu : t ++ (t' ++ [x]) = u at h
    cases h with
    | nil => simp at hu
    | @snoc t0 s1 e w _ hrun hg hs =>
      rw [← List.append_assoc] at hu
      obtain ⟨rfl, hx⟩ := List.append_inj' hu rfl
      obtain rfl := (List.cons.inj hx).1
      obtain ⟨s', h1, h2⟩ := ih hrun
      exact ⟨s', h1, h2.snoc hg hs⟩

/-- The invariant rule: what one admitted step preserves, every run preserves. -/
theorem Run.invariant {I : σ → Prop} (h : S.Run s t s') (h0 : I s)
    (hstep : ∀ {a e b w}, I a → S.guard a e → S.step a e = .ok (b, w) → I b) : I s' := by
  induction h with
  | nil => exact h0
  | snoc _ hg hs ih => exact hstep ih hg hs

theorem Reachable.invariant {I : σ → Prop} (h : S.Reachable s s') (h0 : I s)
    (hstep : ∀ {a e b w}, I a → S.guard a e → S.step a e = .ok (b, w) → I b) : I s' := by
  obtain ⟨t, ht⟩ := h
  exact ht.invariant h0 hstep

/-- The history rule: the invariant may also speak about the trace so far. -/
theorem Run.history {J : List (ε × ω) → σ → Prop} (h : S.Run s t s') (h0 : J [] s)
    (hstep : ∀ {t a e b w}, J t a → S.guard a e → S.step a e = .ok (b, w) →
      J (t ++ [(e, w)]) b) : J t s' := by
  induction h with
  | nil => exact h0
  | snoc _ hg hs ih => exact hstep ih hg hs

/-! ## Executing a list of calls -/

def exec (S : System σ ε ω φ) (s : σ) : List ε → Except φ (σ × List ω)
  | [] => .ok (s, [])
  | e :: es => match S.step s e with
    | .error f => .error f
    | .ok (s, w) => (exec S s es).map fun (s, ws) => (s, w :: ws)

/-- The calls are admitted one after the other, and answered. -/
def Admits (S : System σ ε ω φ) (s : σ) : List ε → Prop
  | [] => True
  | e :: es => S.guard s e ∧ match S.step s e with
    | .error _ => False
    | .ok (s, _) => Admits S s es

/-- Executing admitted calls is a run. -/
theorem Run.of_exec {es : List ε} {ws : List ω} (ha : S.Admits s es)
    (h : S.exec s es = .ok (s', ws)) : S.Run s (es.zip ws) s' := by
  induction es generalizing s ws with
  | nil =>
    obtain ⟨rfl, rfl⟩ := Prod.mk.inj (Except.ok.inj h)
    exact .nil
  | cons e es ih =>
    obtain ⟨hg, ha⟩ := ha
    cases hs : S.step s e with
    | error f => simp [exec, hs] at h
    | ok a =>
      obtain ⟨s₁, w⟩ := a
      rw [hs] at ha
      cases hx : S.exec s₁ es with
      | error f => simp [exec, hs, hx, Except.map] at h
      | ok b =>
        obtain ⟨s₂, ws₂⟩ := b
        simp only [exec, hs, hx, Except.map, Except.ok.injEq, Prod.mk.injEq] at h
        obtain ⟨rfl, rfl⟩ := h
        exact (Run.nil.snoc hg hs).append (ih ha hx)

/-- Calls that may be made in any state may be made one after the other. -/
theorem admits_of_exec {es : List ε} (hg : ∀ e ∈ es, ∀ s, S.guard s e) {ws : List ω}
    (h : S.exec s es = .ok (s', ws)) : S.Admits s es := by
  induction es generalizing s s' ws with
  | nil => trivial
  | cons e es ih =>
    refine ⟨hg e List.mem_cons_self s, ?_⟩
    cases hs : S.step s e with
    | error f => simp [exec, hs] at h
    | ok a =>
      obtain ⟨s₁, w⟩ := a
      cases hx : S.exec s₁ es with
      | error f => simp [exec, hs, hx, Except.map] at h
      | ok b => exact ih (fun a ha => hg a (List.mem_cons_of_mem e ha)) hx

/-! ## Ghost state -/

/-- The system with an observer beside it: `obs` updates the observer's record from the
state before the call, the call, the state after it and the answer. -/
def ghost (S : System σ ε ω φ) (obs : σ → ε → σ → ω → γ → γ) : System (σ × γ) ε ω φ where
  guard := fun p e => S.guard p.1 e
  step := fun p e => (S.step p.1 e).map fun (s, w) => ((s, obs p.1 e s w p.2), w)

variable {obs : σ → ε → σ → ω → γ → γ} {p p' : σ × γ}

theorem ghost_step : (S.ghost obs).step p e = .ok (p', w) ↔
    S.step p.1 e = .ok (p'.1, w) ∧ p'.2 = obs p.1 e p'.1 w p.2 := by
  obtain ⟨s', g'⟩ := p'
  cases h : S.step p.1 e with
  | error e => simp [ghost, h, Except.map]
  | ok a =>
    obtain ⟨s₁, w₁⟩ := a
    simp only [ghost, h, Except.map, Except.ok.injEq, Prod.mk.injEq]
    constructor
    · rintro ⟨⟨rfl, rfl⟩, rfl⟩; exact ⟨⟨rfl, rfl⟩, rfl⟩
    · rintro ⟨⟨rfl, rfl⟩, rfl⟩; exact ⟨⟨rfl, rfl⟩, rfl⟩

/-- An observed run is a run. -/
theorem Run.unghost (h : (S.ghost obs).Run p t p') : S.Run p.1 t p'.1 := by
  induction h with
  | nil => exact .nil
  | snoc _ hg hs ih => exact ih.snoc hg (ghost_step.mp hs).1

/-- Every run can be observed. -/
theorem Run.ghost (h : S.Run s t s') (g : γ) : ∃ g', (S.ghost obs).Run (s, g) t (s', g') := by
  induction h with
  | nil => exact ⟨g, .nil⟩
  | @snoc t s₁ e w s₂ _ hg hs ih =>
    obtain ⟨g', hrun⟩ := ih
    exact ⟨obs s₁ e s₂ w g', hrun.snoc hg (ghost_step.mpr ⟨hs, rfl⟩)⟩

end System

/-! ## What happened since -/

/-- A `p` in the list, and after it no `q`. -/
def Since {α : Type*} (p q : α → Prop) (t : List α) : Prop :=
  ∃ t1 x t2, t = t1 ++ x :: t2 ∧ p x ∧ ∀ y ∈ t2, ¬q y

section Since

variable {α : Type*} {p q : α → Prop} {t : List α} {x : α}

/-- The last element decides, or leaves it to those before it. -/
theorem since_snoc : Since p q (t ++ [x]) ↔ p x ∨ (¬q x ∧ Since p q t) := by
  constructor
  · rintro ⟨t1, y, t2, heq, hp, hq⟩
    rcases List.eq_nil_or_concat t2 with rfl | ⟨t3, z, rfl⟩
    · obtain ⟨_, heq⟩ := List.append_inj' heq rfl
      exact Or.inl ((List.cons.inj heq).1 ▸ hp)
    · have heq : t ++ [x] = (t1 ++ y :: t3) ++ [z] := by
        rw [heq]
        simp
      obtain ⟨rfl, hx⟩ := List.append_inj' heq rfl
      obtain rfl := (List.cons.inj hx).1
      refine Or.inr ⟨hq x (by simp), t1, y, t3, rfl, hp, fun a ha => hq a ?_⟩
      simp [ha]
  · rintro (hp | ⟨hq, t1, y, t2, rfl, hp, hno⟩)
    · exact ⟨t, x, [], rfl, hp, fun _ hy => absurd hy List.not_mem_nil⟩
    · refine ⟨t1, y, t2 ++ [x], by simp, hp, fun a ha => ?_⟩
      rcases List.mem_append.mp ha with ha | ha
      · exact hno a ha
      · rw [List.mem_singleton.mp ha]
        exact hq

end Since

end Fomo.Lib
