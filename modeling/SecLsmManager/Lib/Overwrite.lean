import Mathlib.Data.Set.Function
import Mathlib.Logic.Function.Basic

/-!
# Overwriting a part of a map

`Overwrites S f m m'` says that `m'` is `m` with the keys of `S` set to their values in `f`. It
composes, does not depend on what `m` held on `S`, and such a step leaves `m` as it was exactly
when `m` already agreed with `f` on `S` (`Overwrites.eq_iff`).
-/

namespace Lib

variable {α β : Type*} {S T : Set α} {f m m₁ m₂ : α → β}

/-- `m₁` is `m` with the keys of `S` set as in `f`. -/
structure Overwrites (S : Set α) (f m m₁ : α → β) : Prop where
  set : Set.EqOn m₁ f S
  frame : Set.EqOn m₁ m (Sᶜ : Set α)

/-- With no key to set the map is as it was. -/
theorem Overwrites.refl (f m : α → β) : Overwrites ∅ f m m :=
  ⟨Set.eqOn_empty _ _, Set.eqOn_refl _ _⟩

/-- **Nothing changes exactly when the keys already had their values.** -/
theorem Overwrites.eq_iff (h : Overwrites S f m m₁) : m₁ = m ↔ Set.EqOn m f S := by
  constructor
  · rintro rfl
    exact h.set
  · intro hm
    funext a
    by_cases ha : a ∈ S
    · rw [h.set ha, hm ha]
    · exact h.frame ha

/-- Two overwrites with one `f` set the keys of both. -/
theorem Overwrites.trans (h : Overwrites S f m m₁) (h' : Overwrites T f m₁ m₂) :
    Overwrites (S ∪ T) f m m₂ where
  set := by
    intro a ha
    by_cases hT : a ∈ T
    · exact h'.set hT
    · rw [h'.frame hT]
      exact h.set (ha.resolve_right hT)
  frame := by
    intro a ha
    rw [h'.frame fun hT => ha (.inr hT), h.frame fun hS => ha (.inl hS)]

/-- What the keys of `S` held before does not matter. -/
theorem Overwrites.of_frame (hm : Set.EqOn m₁ m (Sᶜ : Set α)) (h : Overwrites S f m₁ m₂) :
    Overwrites S f m m₂ :=
  ⟨h.set, h.frame.trans hm⟩

/-- The same keys, said in another way. -/
theorem Overwrites.congr (h : Overwrites S f m m₁) (hS : S = T) : Overwrites T f m m₁ := hS ▸ h

/-- Where `m₁` differs from `m`, it has a value that is allowed. -/
def Within (allowed : α → β → Prop) (m m₁ : α → β) : Prop := ∀ a, m₁ a = m a ∨ allowed a (m₁ a)

variable {allowed : α → β → Prop}

/-- A map is within anything of itself. -/
theorem Within.refl (allowed : α → β → Prop) (m : α → β) : Within allowed m m := fun _ => .inl rfl

/-- What is allowed in two steps is allowed in one. -/
theorem Within.trans (h : Within allowed m m₁) (h' : Within allowed m₁ m₂) :
    Within allowed m m₂ := by
  intro a
  obtain heq | hallowed := h' a
  · rw [heq]
    exact h a
  · exact .inr hallowed

variable [DecidableEq α]

/-- A key may get a value that is allowed for it. -/
theorem Within.update (h : Within allowed m m₁) {a : α} {b : β} (hb : allowed a b) :
    Within allowed m (Function.update m₁ a b) := by
  refine h.trans fun c => ?_
  rw [Function.update_apply]
  split
  · subst c
    exact .inr hb
  · exact .inl rfl

/-- An update is the overwrite of one key. -/
theorem Overwrites.update (f m : α → β) (a : α) :
    Overwrites {a} f m (Function.update m a (f a)) where
  set := by
    rintro _ rfl
    exact Function.update_self ..
  frame := by
    intro b hb
    exact Function.update_of_ne hb ..

/-- A change of one key is a change inside any set that has it. -/
theorem eqOn_update {a : α} (ha : a ∈ S) (m : α → β) (b : β) :
    Set.EqOn (Function.update m a b) m (Sᶜ : Set α) := by
  intro c hc
  refine Function.update_of_ne ?_ ..
  rintro rfl
  exact hc ha

end Lib
