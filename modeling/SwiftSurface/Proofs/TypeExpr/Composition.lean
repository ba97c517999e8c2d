import SwiftSurface.TypeExpr.Composition

/-!
# The constituents of a composition

Sorting constituents gives some of them, ascending strictly by their written names
(`sortByName_spec`), and leaves alone what ascends already (`sortByName_of_ascending`). No written
name is lost (`exists_mem_foldl_insertByName`).
-/

namespace SwiftSurface.NamedType

/-- The written names ascend strictly. -/
def Ascending (types : List NamedType) : Prop :=
  types.Pairwise fun a b => compare a.render b.render = .lt

theorem render_of_inner {type : NamedType} (h : type.inner = none) : type.render = type.name := by
  obtain ⟨name, inner⟩ := type
  obtain rfl : inner = none := h
  simp [render, write, NameStyle.spell, Shape.writeInner]

/-- Plain names are written as they are. -/
theorem ascending_iff_of_inner {types : List NamedType} (h : ∀ type ∈ types, type.inner = none) :
    Ascending types ↔ types.Pairwise fun a b => compare a.name b.name = .lt := by
  refine List.Pairwise.iff_of_mem fun {a b} ha hb => ?_
  rw [render_of_inner (h a ha), render_of_inner (h b hb)]

/-! ## One constituent -/

section Insert

variable {type c : NamedType} {sorted : List NamedType}

theorem insertByName_of_last (h : ∀ c ∈ sorted, compare c.render type.render = .lt) :
    type.insertByName sorted = sorted ++ [type] := by
  induction sorted with
  | nil => rfl
  | cons head rest ih =>
      have hgt : compare type.render head.render = .gt :=
        Std.OrientedCmp.gt_iff_lt.2 (h head (by simp))
      rw [insertByName, hgt]
      simp [ih fun c hc => h c (by simp [hc])]

theorem mem_insertByName (h : c ∈ type.insertByName sorted) : c = type ∨ c ∈ sorted := by
  induction sorted with
  | nil => simpa [insertByName] using h
  | cons head rest ih =>
      rw [insertByName] at h
      split at h <;> grind

/-- A constituent in its place keeps the names ascending. -/
theorem ascending_insertByName (type : NamedType) (h : Ascending sorted) :
    Ascending (type.insertByName sorted) := by
  induction sorted with
  | nil => simp [insertByName, Ascending]
  | cons head rest ih =>
      obtain ⟨hhead, hrest⟩ := List.pairwise_cons.1 h
      rw [insertByName]
      split
      case h_1 hlt =>
          refine List.pairwise_cons.2 ⟨fun c hc => ?_, h⟩
          rcases List.mem_cons.1 hc with rfl | hc
          · exact hlt
          · exact Std.TransCmp.lt_trans hlt (hhead c hc)
      case h_2 => exact h
      case h_3 hgt =>
          refine List.pairwise_cons.2 ⟨fun c hc => ?_, ih hrest⟩
          rcases mem_insertByName hc with rfl | hc
          · exact Std.OrientedCmp.gt_iff_lt.1 hgt
          · exact hhead c hc

/-- No constituent is lost. -/
theorem mem_insertByName_of_mem (h : c ∈ sorted) : c ∈ type.insertByName sorted := by
  induction sorted with
  | nil => simp at h
  | cons head rest ih =>
      rw [insertByName]
      split
      case h_1 => exact List.mem_cons_of_mem type h
      case h_2 => exact h
      case h_3 =>
          rcases List.mem_cons.1 h with rfl | h
          · exact List.mem_cons_self
          · exact List.mem_cons_of_mem head (ih h)

/-- The written name of the constituent is there. -/
theorem exists_mem_insertByName (type : NamedType) (sorted : List NamedType) :
    ∃ d ∈ type.insertByName sorted, d.render = type.render := by
  induction sorted with
  | nil => simp [insertByName]
  | cons head rest ih =>
      rw [insertByName]
      split
      case h_1 => exact ⟨type, List.mem_cons_self, rfl⟩
      case h_2 heq => exact ⟨head, List.mem_cons_self, (Std.LawfulEqCmp.eq_of_compare heq).symm⟩
      case h_3 =>
          obtain ⟨d, hd, hrender⟩ := ih
          exact ⟨d, List.mem_cons_of_mem head hd, hrender⟩

theorem insertByName_ne_nil (type : NamedType) (sorted : List NamedType) :
    type.insertByName sorted ≠ [] := by
  cases sorted with
  | nil => simp [insertByName]
  | cons head rest =>
      rw [insertByName]
      split <;> simp

end Insert

/-! ## All constituents -/

theorem foldl_insertByName_of_ascending {sorted types : List NamedType}
    (h : Ascending (sorted ++ types)) :
    types.foldl (fun sorted type => type.insertByName sorted) sorted = sorted ++ types := by
  induction types generalizing sorted with
  | nil => simp
  | cons type types ih =>
      -- what comes next belongs behind all that is sorted already
      have hlast : ∀ c ∈ sorted, compare c.render type.render = .lt :=
        fun c hc => (List.pairwise_append.1 h).2.2 c hc type (by simp)
      rw [List.append_cons] at h ⊢
      rw [List.foldl_cons, insertByName_of_last hlast, ih h]

/-- Ascending constituents are sorted already. -/
theorem sortByName_of_ascending {types : List NamedType} (h : Ascending types) :
    sortByName types = types :=
  foldl_insertByName_of_ascending h

theorem foldl_insertByName_spec {sorted : List NamedType} (types : List NamedType)
    (h : Ascending sorted) :
    let all := types.foldl (fun sorted type => type.insertByName sorted) sorted
    Ascending all ∧ (∀ c ∈ all, c ∈ sorted ∨ c ∈ types) ∧
      (sorted ≠ [] ∨ types ≠ [] → all ≠ []) := by
  induction types generalizing sorted with
  | nil => simp_all
  | cons type types ih =>
      obtain ⟨hascending, hmem, hne⟩ := ih (ascending_insertByName type h)
      refine ⟨hascending, fun c hc => ?_, fun _ => hne (.inl (insertByName_ne_nil type sorted))⟩
      rcases hmem c hc with hc | hc
      · rcases mem_insertByName hc with rfl | hc
        · exact .inr (by simp)
        · exact .inl hc
      · exact .inr (by simp [hc])

/-- The constituents of a composition are some of those given, ascending. -/
theorem sortByName_spec (types : List NamedType) :
    Ascending (sortByName types) ∧ (∀ c ∈ sortByName types, c ∈ types) ∧
      (types ≠ [] → sortByName types ≠ []) := by
  have hnil : Ascending [] := .nil
  obtain ⟨hascending, hmem, hne⟩ := foldl_insertByName_spec types hnil
  exact ⟨hascending, fun c hc => (hmem c hc).resolve_left (by simp), fun h => hne (.inr h)⟩

/-- The written name of each constituent is among those of the sorted ones. -/
theorem exists_mem_foldl_insertByName {c : NamedType} (types sorted : List NamedType)
    (h : c ∈ types ∨ ∃ d ∈ sorted, d.render = c.render) :
    ∃ d ∈ types.foldl (fun sorted type => type.insertByName sorted) sorted,
      d.render = c.render := by
  induction types generalizing sorted with
  | nil => simpa using h
  | cons type types ih =>
      refine ih _ ?_
      rcases h with h | ⟨d, hd, hrender⟩
      · rcases List.mem_cons.1 h with rfl | h
        · exact .inr (exists_mem_insertByName c sorted)
        · exact .inl h
      · exact .inr ⟨d, mem_insertByName_of_mem hd, hrender⟩

end SwiftSurface.NamedType
