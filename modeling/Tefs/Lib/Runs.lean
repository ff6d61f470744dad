import Mathlib.Data.List.Basic

/-! # Guarded runs of a labelled step relation

`Reaches step ok s as t`: the actions `as`, taken one after the other, lead from `s` to `t`, and
`ok` allowed each action in the state it was taken in. A property of the end state of every such
run is a property of every state such a run passes through, because a prefix of a run is a run.
-/

namespace Tefs.Runs
set_option autoImplicit false

variable {σ α : Type*}

inductive Reaches (step : σ → α → σ → Prop) (ok : σ → α → Prop) : σ → List α → σ → Prop
  | nil (s : σ) : Reaches step ok s [] s
  | cons {s s' t : σ} {a : α} {as : List α} (allowed : ok s a) (taken : step s a s')
      (rest : Reaches step ok s' as t) : Reaches step ok s (a :: as) t

variable {step : σ → α → σ → Prop} {ok : σ → α → Prop}

/-- The invariant rule: what one allowed step preserves, a run preserves. -/
theorem Reaches.invariant {s t : σ} {as : List α} {I : σ → Prop}
    (hstep : ∀ s a s', I s → ok s a → step s a s' → I s') (h : Reaches step ok s as t)
    (hs : I s) : I t := by
  induction h with
  | nil s => exact hs
  | cons allowed taken _ ih => exact ih (hstep _ _ _ hs allowed taken)

/-- The same where the invariant is about the actions so far as well -/
theorem Reaches.invariant_history {s t : σ} {past as : List α} {I : List α → σ → Prop}
    (hstep : ∀ past s a s', I past s → ok s a → step s a s' → I (past ++ [a]) s') (h : Reaches step ok s as t)
    (hs : I past s) : I (past ++ as) t := by
  induction h generalizing past with
  | nil s =>
    rw [List.append_nil]
    exact hs
  | cons allowed taken _ ih =>
    have h := ih (hstep past _ _ _ hs allowed taken)
    rwa [List.append_assoc, List.singleton_append] at h

theorem Reaches.mono {ok' : σ → α → Prop} {s t : σ} {as : List α} (hok : ∀ s a, ok s a → ok' s a)
    (h : Reaches step ok s as t) : Reaches step ok' s as t := by
  induction h with
  | nil s => exact .nil s
  | cons allowed taken _ ih => exact .cons (hok _ _ allowed) taken ih

theorem Reaches.append {s t u : σ} {as bs : List α} (h : Reaches step ok s as t)
    (h' : Reaches step ok t bs u) : Reaches step ok s (as ++ bs) u := by
  induction h with
  | nil s => exact h'
  | cons allowed taken _ ih => exact .cons allowed taken (ih h')

/-! ## Steps that are functions -/

def ofFun (f : σ → α → σ) : σ → α → σ → Prop := fun s a t => f s a = t

def allAllowed (f : σ → α → σ) (ok : σ → α → Prop) : σ → List α → Prop
  | _, [] => True
  | s, a :: as => ok s a ∧ allAllowed f ok (f s a) as

instance instDecidableAllAllowed (f : σ → α → σ) (ok : σ → α → Prop)
    [h : ∀ s a, Decidable (ok s a)] : ∀ (s : σ) (as : List α), Decidable (allAllowed f ok s as)
  | _, [] => .isTrue trivial
  | s, a :: as => @instDecidableAnd _ _ (h s a) (instDecidableAllAllowed f ok (f s a) as)

theorem reaches_of_allAllowed (f : σ → α → σ) (ok : σ → α → Prop) (s : σ) (as : List α)
    (h : allAllowed f ok s as) : Reaches (ofFun f) ok s as (as.foldl f s) := by
  induction as generalizing s with
  | nil => exact .nil s
  | cons a as ih => exact .cons h.1 rfl (ih (f s a) h.2)

/-! ## Steps that may fail -/

def allAllowedM (f : σ → α → Option σ) (ok : σ → α → Prop) : σ → List α → Prop
  | _, [] => True
  | s, a :: as => ok s a ∧ ∀ s', f s a = some s' → allAllowedM f ok s' as

theorem forall_some_iff {s : σ} {P : σ → Prop} : (∀ s', some s = some s' → P s') ↔ P s :=
  ⟨fun h => h s rfl, fun h _ hs' => Option.some.inj hs' ▸ h⟩

theorem forall_none {P : σ → Prop} (s' : σ) (h : none = some s') : P s' := nomatch h

instance instDecidableForallSome {P : σ → Prop} [h : ∀ s, Decidable (P s)] :
    ∀ o : Option σ, Decidable (∀ s', o = some s' → P s')
  | none => .isTrue forall_none
  | some s => @decidable_of_iff _ _ forall_some_iff.symm (h s)

instance instDecidableAllAllowedM (f : σ → α → Option σ) (ok : σ → α → Prop) [h : ∀ s a, Decidable (ok s a)] :
    ∀ (s : σ) (as : List α), Decidable (allAllowedM f ok s as)
  | _, [] => .isTrue trivial
  | s, a :: as => @instDecidableAnd _ _ (h s a)
    (@instDecidableForallSome _ _ (fun s' => instDecidableAllAllowedM f ok s' as) (f s a))

/-- Allowed actions of which none fails are a run. -/
theorem reaches_of_foldlM {f : σ → α → Option σ} {s t : σ} {as : List α} (h : allAllowedM f ok s as)
    (ht : as.foldlM f s = some t) : Reaches (fun s a t => f s a = some t) ok s as t := by
  induction as generalizing s with
  | nil =>
    obtain rfl := Option.some.inj ht
    exact .nil s
  | cons a as ih =>
    rw [List.foldlM_cons] at ht
    obtain ⟨s', htaken, hrest⟩ := Option.bind_eq_some_iff.mp ht
    exact .cons h.1 htaken (ih (h.2 s' htaken) hrest)

/-- The invariant rule where an allowed step also must not fail: no allowed run fails. -/
theorem run_invariantM {f : σ → α → Option σ} {I : σ → Prop} (hstep : ∀ s a, I s → ok s a → ∃ s', f s a = some s' ∧ I s')
    {s : σ} {as : List α} (h : allAllowedM f ok s as) (hs : I s) : ∃ t, as.foldlM f s = some t ∧ I t := by
  induction as generalizing s with
  | nil => exact ⟨s, rfl, hs⟩
  | cons a as ih =>
    obtain ⟨s', htaken, hs'⟩ := hstep s a hs h.1
    obtain ⟨t, hrest, ht⟩ := ih (h.2 s' htaken) hs'
    refine ⟨t, ?_, ht⟩
    rw [List.foldlM_cons, htaken]
    exact hrest

end Tefs.Runs
