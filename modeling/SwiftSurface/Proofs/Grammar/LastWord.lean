import SwiftSurface.Proofs.Grammar.Constituents
import SwiftSurface.Proofs.Grammar.TrailingBlanks
import SwiftSurface.Proofs.TypeExpr.InnerTypes

/-!
# Texts that end in a letter

A group ends with its closing mark, a collection with its bracket, an optional type with its mark.
So an operand that ends in a letter is a nominal path, and a text that ends in a letter is read as
the bare name `inout` only if it is this word (`eq_inout_of_core`).
-/

namespace SwiftSurface.Grammar

open SwiftSurface.Parser Text

variable {s r : List Char} {t : TypeExpr} {c : Char}

theorem getLast?_of_suffix (h : r <:+ s) (hne : r ≠ []) : r.getLast? = s.getLast? := by
  obtain ⟨before, rfl⟩ := h
  simp [List.getLast?_append, List.getLast?_eq_some_getLast hne]

theorem eq_of_names (s : List Char) :
    s = (many (after (char '.') identifier) s).1.flatMap ('.' :: ·) ++
      (many (after (char '.') identifier) s).2 := by
  fun_induction many (after (char '.') identifier) s with
  | case1 s name rest hname hlt more rest' hmany ih =>
      obtain ⟨u, rfl, hread⟩ := after_char_eq_some hname
      rw [hmany] at ih
      rw [(run_eq_some hread).1, List.flatMap_cons, List.append_assoc, ← ih]
      rfl
  | case2 => simp
  | case3 => simp

theorem eq_of_dottedName {name : List Char} (h : dottedName s = some (name, r)) : s = name ++ r := by
  obtain ⟨⟨first, rest⟩, hfirst, h⟩ := Option.map_eq_some_iff.1 h
  obtain ⟨rfl, rfl⟩ := Prod.mk.inj h
  obtain ⟨rfl, -⟩ := run_eq_some hfirst
  rw [List.append_assoc, ← eq_of_names rest]

theorem mem_of_many_optionalMark (h : (many optionalMark s).2 = []) :
    ∀ c ∈ s, c ∈ ['?', '!'] := by
  fun_induction many optionalMark s with
  | case1 s wrapper rest hmark hlt more rest' hmany ih =>
      obtain ⟨c, hc, rfl⟩ := optionalMark_eq_some hmark
      rw [hmany] at ih
      exact List.forall_mem_cons.2 ⟨hc, ih h⟩
  | case2 s wrapper rest hmark hnot => exact absurd (optionalMark_shrinks hmark) hnot
  | case3 s hnone =>
      obtain rfl : s = [] := h
      simp

/-- A group ends with its closing mark. -/
theorem getLast?_of_group (h : group core s = some (t, [])) : s.getLast? = some ')' := by
  obtain ⟨⟨elements, _⟩, hgroup, hr⟩ := Option.map_eq_some_iff.1 h
  obtain ⟨-, rfl⟩ := Prod.mk.inj hr
  obtain ⟨rest, _, helements, hclose⟩ := followedBy_eq_some hgroup
  have hmore : Closes [')'] := ⟨')', rfl, by decide⟩
  have hsuffix := (groupElements_rule hmore (core_continues hmore) _ _ _ helements).1
  rw [char_eq_some hclose] at hsuffix
  exact (getLast?_of_suffix hsuffix (by simp)).symm

theorem getLast?_of_collection (h : collection core s = some (t, [])) : s.getLast? = some ']' := by
  rw [collection_eq] at h
  obtain ⟨rest, _, helements, hclose⟩ := followedBy_eq_some h
  have hmore : Closes [']'] := ⟨']', rfl, by decide⟩
  have hsuffix := (((Persists.char [']'] '[').after
    (collectionElements_rule hmore (core_continues hmore))) _ _ _ helements).1
  rw [char_eq_some hclose] at hsuffix
  exact (getLast?_of_suffix hsuffix (by simp)).symm

/-- An atom that ends in a letter is a nominal path. -/
theorem nominal_of_atom (h : atom core s = some (t, [])) (hs : s.getLast? = some 't') :
    nominal core s = some (t, []) := by
  obtain ⟨⟨u, rest⟩, hrule, h⟩ := Option.map_eq_some_iff.1 h
  obtain ⟨rfl, hmarks⟩ := Prod.mk.inj h
  have hmore : Closes [')'] := ⟨')', rfl, by decide⟩
  have hcore := core_continues hmore
  have hnil (hsuffix : rest <:+ s) : rest = [] := by
    by_contra hne
    have hlast := (getLast?_of_suffix hsuffix hne).trans hs
    exact absurd (mem_of_many_optionalMark hmarks 't' (List.mem_of_getLast? hlast)) (by decide)
  rcases orElse_eq_some hrule with hgroup | hrule
  · obtain rfl := hnil (group_rule hmore hcore _ _ _ hgroup).1
    exact absurd (hs.symm.trans (getLast?_of_group hgroup)) (by decide)
  rcases orElse_eq_some hrule with hcollection | hnominal
  · obtain rfl := hnil (collection_rule hmore hcore _ _ _ hcollection).1
    exact absurd (hs.symm.trans (getLast?_of_collection hcollection)) (by decide)
  · obtain rfl := hnil (nominal_rule hmore hcore _ _ _ hnominal).1
    rw [many_of_none (rfl : optionalMark [] = none)]
    exact hnominal

/-- A composition that ends in a letter is a nominal path, or it has several operands. -/
theorem nominal_or_composition (h : composition core s = some (t, []))
    (hs : s.getLast? = some 't') : nominal core s = some (t, []) ∨ t.kind = .composition := by
  rw [composition] at h
  cases hatom : atom core s with
  | none => simp [hatom] at h
  | some found =>
      obtain ⟨first, rest⟩ := found
      rw [hatom] at h
      dsimp only at h
      split at h
      case h_1 rest' hmany =>
          obtain ⟨rfl, rfl⟩ := Prod.mk.inj (Option.some.inj h)
          have hrest := many_snd_of_nil (by rw [hmany])
          rw [hmany] at hrest
          obtain rfl : [] = rest := hrest
          exact .inl (nominal_of_atom hatom hs)
      case h_2 =>
          obtain ⟨types, -, h⟩ := Option.map_eq_some_iff.1 h
          obtain ⟨rfl, -⟩ := Prod.mk.inj h
          exact .inr rfl

theorem isNominal_nominalPath {head : TypeExpr} {more : List TypeExpr} (hhead : head.IsNominal)
    (hmore : ∀ t ∈ more, t.IsNominal) : (nominalPath head more).IsNominal := by
  induction more generalizing head with
  | nil => exact hhead
  | cons next more ih =>
      exact (hhead.withInner (ih (hmore next (by simp)) fun t ht => hmore t (by simp [ht]))).1

theorem yields_segment_isNominal : Yields (segment core) TypeExpr.IsNominal := by
  intro s t r h
  obtain ⟨⟨name, rest⟩, -, h⟩ := Option.map_eq_some_iff.1 h
  obtain ⟨rfl, -⟩ := Prod.mk.inj h
  exact TypeExpr.isNominal_generic _ _

theorem isNominal_of_nominal (h : nominal core s = some (t, r)) : t.IsNominal := by
  obtain ⟨⟨head, rest⟩, hhead, h⟩ := Option.map_eq_some_iff.1 h
  obtain ⟨rfl, -⟩ := Prod.mk.inj h
  exact isNominal_nominalPath (yields_segment_isNominal _ _ _ hhead)
    ((yields_segment_isNominal.after (char '.')).many rest)

theorem kind_ne_closure (h : composition core s = some (t, [])) (hs : s.getLast? = some 't') :
    t.kind ≠ .closure := by
  rcases nominal_or_composition h hs with hnominal | hkind
  · cases isNominal_of_nominal hnominal <;> simp [TypeExpr.kind, Shape.kind]
  · simp [hkind]

theorem eq_inout_of_segment (h : segment core s = some (t, [])) (ht : t.IsDecoratedName "inout") :
    s = "inout".toList := by
  obtain ⟨⟨name, rest⟩, hname, h⟩ := Option.map_eq_some_iff.1 h
  obtain ⟨rfl, hrest⟩ := Prod.mk.inj h
  obtain ⟨hshape, hgenerics, -⟩ := ht
  have hnone : genericArguments core rest = none := by
    refine Option.eq_none_iff_forall_ne_some.2 fun ⟨types, r⟩ htypes => ?_
    refine (yields_genericArguments yields_core _ _ _ htypes).1 ?_
    simpa [optionally, htypes, TypeExpr.generic, TypeExpr.withGenerics] using hgenerics
  obtain rfl : rest = [] := by simpa [optionally, hnone] using hrest
  have hcanonical : NamedType.canonicalName (String.ofList name) = "inout" := by
    simpa [TypeExpr.generic, TypeExpr.withGenerics, TypeExpr.named, TypeExpr.ofShape,
      NamedType.ofName] using hshape
  have hword : String.ofList name = "inout" := by
    unfold NamedType.canonicalName at hcanonical
    split at hcanonical
    · exact absurd hcanonical (by decide)
    split at hcanonical
    · exact absurd hcanonical (by decide)
    · exact hcanonical
  rw [eq_of_dottedName hname, List.append_nil, ← hword, String.toList_ofList]

theorem components_of_isDecoratedName (ht : t.IsDecoratedName "inout") :
    t.components = ["inout".toList] := by
  obtain ⟨shape, generics, attributes, isInout, label⟩ := t
  obtain ⟨rfl, rfl, rfl⟩ := ht
  rfl

theorem eq_inout_of_nominal (h : nominal core s = some (t, [])) (ht : t.IsDecoratedName "inout") :
    s = "inout".toList := by
  obtain ⟨⟨head, rest⟩, hhead, h⟩ := Option.map_eq_some_iff.1 h
  obtain ⟨rfl, hrest⟩ := Prod.mk.inj h
  have hmore := (yields_segment_isNominal.after (char '.')).many rest
  cases hnext : (many (after (char '.') (segment core)) rest).1 with
  | nil =>
      rw [many_snd_of_nil hnext] at hrest
      rw [hnext] at ht
      subst hrest
      exact eq_inout_of_segment hhead ht
  | cons next more =>
      -- a path of several segments has several components
      rw [hnext] at ht hmore
      have hinner := isNominal_nominalPath (hmore next (by simp))
        fun u hu => hmore u (List.mem_cons_of_mem next hu)
      have hhead := yields_segment_isNominal _ _ _ hhead
      have hsingle : head.components ++ (nominalPath next more).components = ["inout".toList] := by
        rw [← (hhead.withInner hinner).2]
        exact components_of_isDecoratedName ht
      have hpos := List.length_pos_iff.2 hhead.components_ne_nil
      have hpos' := List.length_pos_iff.2 hinner.components_ne_nil
      have hlength := congrArg List.length hsingle
      simp only [List.length_append, List.length_singleton] at hlength
      omega

theorem eq_inout_of_core (h : core s = some (t, [])) (ht : t.IsDecoratedName "inout")
    (hs : s.getLast? = some 't') : s = "inout".toList := by
  rw [core_eq, coreRule_eq] at h
  obtain ⟨⟨argument, rest⟩, hargument, h⟩ := Option.map_eq_some_iff.1 h
  obtain ⟨rfl, hrest⟩ := Prod.mk.inj h
  cases harrow : arrow core rest with
  | none =>
      obtain rfl : rest = [] := by simpa [optionally, harrow] using hrest
      have htype : argument.IsDecoratedName "inout" := by
        simpa [optionally, harrow, closureOf] using ht
      rcases nominal_or_composition hargument hs with hnominal | hkind
      · exact eq_inout_of_nominal hnominal htype
      · simp [TypeExpr.kind, htype.1, Shape.kind] at hkind
  | some found =>
      -- a closure is no name
      have hshape := ht.1
      simp [optionally, harrow, closureOf, TypeExpr.closure, TypeExpr.ofShape] at hshape

end SwiftSurface.Grammar
