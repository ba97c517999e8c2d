import SwiftSurface.Proofs.Inventory.Containers

/-!
# Steps that do not meet

Two steps commute at a state if either order leads to the same state and neither changes whether the
other is refused (`Filed.CommuteAt`). Steps that read and write one part of a state each commute if
the parts differ (`FilesAt.commute`), and steps that go to one part commute if they do inside of it
(`Filed.CommuteAt.within`).

The parts of a state are given by a view, which names them by keys and must tell states apart.
-/

namespace SwiftSurface

variable {σ τ κ : Type}

/-! ## Commuting steps -/

namespace Filed

/-- Both orders of the two steps lead from `s` to the same state, and neither step changes the
other's refusal. -/
structure CommuteAt (file other : σ → Filed σ) (s : σ) : Prop where
  after : (other (file s).after).after = (file (other s).after).after
  second : (other (file s).after).rejection = (other s).rejection
  first : (file (other s).after).rejection = (file s).rejection

/-- Only the outcomes in the states on the way matter to whether steps commute. -/
theorem CommuteAt.congr {P : σ → Prop} {file file' other other' : σ → Filed σ} {s : σ}
    (h : CommuteAt file other s) (hs : P s) (hfileKeeps : P (file s).after)
    (hotherKeeps : P (other s).after) (hfile : ∀ s, P s → (file' s).outcome = (file s).outcome)
    (hother : ∀ s, P s → (other' s).outcome = (other s).outcome) : CommuteAt file' other' s := by
  have hfile' s hs := outcome_eq_iff.1 (hfile s hs)
  have hother' s hs := outcome_eq_iff.1 (hother s hs)
  constructor
  · rw [(hfile' s hs).1, (hother' s hs).1, (hother' _ hfileKeeps).1, (hfile' _ hotherKeeps).1,
      h.after]
  · rw [(hfile' s hs).1, (hother' _ hfileKeeps).2, (hother' s hs).2, h.second]
  · rw [(hother' s hs).1, (hfile' _ hotherKeeps).2, (hfile' s hs).2, h.first]

/-- Steps in a part of the state commute if they do in that part. -/
theorem CommuteAt.within (part : τ → σ) (rebuild : τ → σ → τ) {file other : σ → Filed σ} {s : τ}
    (h : CommuteAt file other (part s)) (hget : ∀ s x, part (rebuild s x) = x)
    (hput : ∀ s x y, rebuild (rebuild s x) y = rebuild s y) :
    CommuteAt (fun s => (file (part s)).within (rebuild s))
      (fun s => (other (part s)).within (rebuild s)) s := by
  constructor
  · simp only [after_within, hget, hput, h.after]
  · simp only [after_within, rejection_within, hget, h.second]
  · simp only [after_within, rejection_within, hget, h.first]

end Filed

open Filed

/-! ## Steps that read and write one part -/

/-- In the states of `P`, the step reads and writes the part `key` of a state only, and stays in
`P`. -/
structure FilesAt {ν : κ → Type} (P : σ → Prop) (view : σ → (k : κ) → ν k) (key : κ)
    (file : σ → Filed σ) : Prop where
  keeps : ∀ s, P s → P (file s).after
  elsewhere : ∀ s, P s → ∀ k, k ≠ key → view (file s).after k = view s k
  here : ∀ s s', P s → P s' → view s key = view s' key →
    view (file s).after key = view (file s').after key ∧ (file s).rejection = (file s').rejection

/-- Steps in different parts commute, where the view tells states apart. -/
theorem FilesAt.commute {ν : κ → Type} {P : σ → Prop} {view : σ → (k : κ) → ν k} {a b : κ}
    {file other : σ → Filed σ} (hext : ∀ s s', P s → P s' → (∀ k, view s k = view s' k) → s = s')
    (ha : FilesAt P view a file) (hb : FilesAt P view b other) (hne : a ≠ b) {s : σ} (hs : P s) :
    CommuteAt file other s := by
  have hafterFile := ha.keeps s hs
  have hafterOther := hb.keeps s hs
  -- each step finds its own part as it was
  have hfile := ha.here (other s).after s hafterOther hs (hb.elsewhere s hs a hne)
  have hother := hb.here (file s).after s hafterFile hs (ha.elsewhere s hs b hne.symm)
  refine ⟨hext _ _ (hb.keeps _ hafterFile) (ha.keeps _ hafterOther) fun k => ?_, hother.2, hfile.2⟩
  by_cases hka : k = a
  · subst hka
    rw [hb.elsewhere _ hafterFile _ hne, hfile.1]
  · rw [ha.elsewhere _ hafterOther _ hka]
    by_cases hkb : k = b
    · subst hkb
      exact hother.1
    · rw [hb.elsewhere _ hafterFile _ hkb, hb.elsewhere _ hs _ hkb, ha.elsewhere _ hs _ hka]

theorem FilesAt.congr {ν : κ → Type} {P : σ → Prop} {view : σ → (k : κ) → ν k} {key : κ}
    {file other : σ → Filed σ} (h : FilesAt P view key file)
    (hsame : ∀ s, P s → (other s).outcome = (file s).outcome) : FilesAt P view key other := by
  have hsame' s hs := outcome_eq_iff.1 (hsame s hs)
  constructor
  · intro s hs
    rw [(hsame' s hs).1]
    exact h.keeps s hs
  · intro s hs k hne
    rw [(hsame' s hs).1]
    exact h.elsewhere s hs k hne
  · intro s s' hs hs' hview
    rw [(hsame' s hs).1, (hsame' s hs).2, (hsame' s' hs').1, (hsame' s' hs').2]
    exact h.here s s' hs hs' hview

/-- A step that computes what is written to a part from what it reads there. -/
theorem FilesAt.of_write {ν : κ → Type} {P : σ → Prop} {view : σ → (k : κ) → ν k} {key : κ}
    {file : σ → Filed σ} (write : σ → ν key → σ) (step : ν key → ν key × Option SlotTaken)
    (hkeeps : ∀ s x, P s → P (write s x))
    (helsewhere : ∀ s x k, k ≠ key → view (write s x) k = view s k)
    (hhere : ∀ s s' x, view s key = view s' key → view (write s x) key = view (write s' x) key)
    (h : ∀ s, P s → (file s).outcome = (write s (step (view s key)).1, (step (view s key)).2)) :
    FilesAt P view key file := by
  simp only [outcome, Prod.ext_iff] at h
  constructor
  · intro s hs
    rw [(h s hs).1]
    exact hkeeps s _ hs
  · intro s hs k hne
    rw [(h s hs).1]
    exact helsewhere s _ k hne
  · intro s s' hs hs' hview
    rw [(h s hs).1, (h s hs).2, (h s' hs').1, (h s' hs').2, hview]
    exact ⟨hhere s s' _ hview, rfl⟩

end SwiftSurface
