import SwiftSurface.Proofs.TypeExpr.Normal

/-!
# Dotted names

The components of a dotted name, and what is left of a name without its module: all but the first
component, or the whole name if it has one component only (`unqualifiedName_cases`).
-/

namespace SwiftSurface

open Grammar

/-! ## Paths -/

theorem IsPath.append {cs ds : List Char} (h : IsPath cs) (h' : IsPath ds) :
    IsPath (cs ++ '.' :: ds) := by
  obtain ⟨first, more, hfirst, hmore, rfl⟩ := h
  obtain ⟨first', more', hfirst', hmore', rfl⟩ := h'
  refine ⟨first, more ++ first' :: more', hfirst, ?_, by simp⟩
  simpa [or_imp, forall_and] using ⟨hmore, hfirst', hmore'⟩

/-- Two names joined by a dot are none of the words that are special as a whole. -/
theorem isTypeName_join {name name' : String} (h : IsPath name.toList) (h' : IsPath name'.toList) :
    IsTypeName (name ++ "." ++ name') ∧ name ++ "." ++ name' ≠ "inout" := by
  have hdot : '.' ∈ (name ++ "." ++ name').toList := by simp
  refine ⟨⟨by simpa using h.append h', ?_, ?_⟩, ?_⟩
  all_goals
    intro hword
    rw [hword] at hdot
    exact absurd hdot (by decide)

/-- Is this a character of a dotted name? -/
def isPathChar (c : Char) : Bool :=
  isIdentifierChar c || c == '.'

theorem IsPath.isPathChar {cs : List Char} (h : IsPath cs) : ∀ c ∈ cs, isPathChar c := by
  obtain ⟨first, more, hfirst, hmore, rfl⟩ := h
  intro c hc
  rcases List.mem_append.1 hc with hc | hc
  · simp [SwiftSurface.isPathChar, hfirst.2 c hc]
  · obtain ⟨name, hname, hc⟩ := List.mem_flatMap.1 hc
    rcases List.mem_cons.1 hc with rfl | hc
    · rfl
    · simp [SwiftSurface.isPathChar, (hmore name hname).2 c hc]

theorem dot_notMem_of_isIdentifier {cs : List Char} (h : IsIdentifier cs) : '.' ∉ cs :=
  fun hdot => absurd (h.2 '.' hdot) (by decide)

/-! ## Names without their modules -/

namespace NamedType

theorem splitModule_of_dot {name : String} {before after : List Char} (h : '.' ∉ before)
    (hname : name.toList = before ++ '.' :: after) :
    splitModule name = some (String.ofList before, String.ofList after) := by
  have hclass : ∀ c ∈ before, (c != '.') = true :=
    fun c hc => bne_iff_ne.2 fun hdot => h (hdot ▸ hc)
  simp [splitModule, hname, List.dropWhile_append_of_pos hclass,
    List.takeWhile_append_of_pos hclass]

theorem splitModule_of_single {name : String} (h : '.' ∉ name.toList) :
    splitModule name = none := by
  have hdrop : name.toList.dropWhile (· != '.') = [] := by
    have hclass : ∀ c ∈ name.toList, (c != '.') = true :=
      fun c hc => bne_iff_ne.2 fun hdot => h (hdot ▸ hc)
    rw [← List.append_nil name.toList, List.dropWhile_append_of_pos hclass, List.dropWhile_nil]
  simp [splitModule, hdrop]

theorem unqualifiedName_of_single {name : String} (h : '.' ∉ name.toList) :
    unqualifiedName name = name := by
  simp [unqualifiedName, splitModule_of_single h]

/-- A name has a single component, or it is its first component, a dot and the name without its
module. -/
theorem unqualifiedName_cases (name : String) :
    ('.' ∉ name.toList ∧ module? ⟨name, none⟩ = none ∧ unqualifiedName name = name) ∨
    ∃ first, '.' ∉ first ∧ module? ⟨name, none⟩ = some (String.ofList first) ∧
      name.toList = first ++ '.' :: (unqualifiedName name).toList := by
  by_cases h : '.' ∈ name.toList
  · obtain ⟨before, after, hname, hbefore⟩ := List.eq_append_cons_of_mem h
    have hsplit := splitModule_of_dot hbefore hname
    exact .inr ⟨before, hbefore, by simp [module?, hsplit],
      by simp [unqualifiedName, hsplit, hname]⟩
  · exact .inl ⟨h, by simp [module?, splitModule_of_single h], unqualifiedName_of_single h⟩

/-- A name without its module is made of characters of the name. -/
theorem mem_of_mem_unqualifiedName {name : String} {c : Char}
    (hc : c ∈ (unqualifiedName name).toList) : c ∈ name.toList := by
  rcases unqualifiedName_cases name with ⟨-, -, h⟩ | ⟨first, -, -, h⟩
  · rwa [← h]
  · rw [h]
    simp [hc]

/-- A path without its module is a path. -/
theorem isPath_unqualifiedName {name : String} (h : IsPath name.toList) :
    IsPath (unqualifiedName name).toList := by
  obtain ⟨first, more, hfirst, hmore, hname⟩ := id h
  cases more with
  | nil =>
      rw [List.flatMap_nil, List.append_nil] at hname
      rwa [unqualifiedName_of_single (hname ▸ dot_notMem_of_isIdentifier hfirst)]
  | cons second more =>
      rw [List.flatMap_cons, List.cons_append] at hname
      rw [unqualifiedName, splitModule_of_dot (dot_notMem_of_isIdentifier hfirst) hname]
      simp only [Option.map_some, Option.getD_some, String.toList_ofList]
      exact ⟨second, more, hmore second (by simp), fun n hn => hmore n (by simp [hn]), rfl⟩

end NamedType

end SwiftSurface
