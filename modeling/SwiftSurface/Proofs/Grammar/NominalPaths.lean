import Mathlib.Data.List.SplitBy
import SwiftSurface.Proofs.Grammar.ShortForms
import SwiftSurface.Proofs.TypeExpr.InnerTypes

/-!
# The components of nominal paths

A nominal path is read piece by piece: a piece goes on to the first generic arguments, and its names
are joined to one. The names of the pieces, one after the other, are the components of the type that
is read, but a piece that is nothing but `Any` or `AnyObject` gets its module, wherever it stands in
the path (`components_parse_path`).
-/

namespace SwiftSurface

open Grammar SwiftSurface.Parser Text

/-! ## Paths -/

/-- An identifier of a nominal path, and the texts of the generic arguments behind it with the types
that they spell. -/
structure PathPart where
  name : List Char
  arguments : List (String × TypeExpr)
  isIdentifier : IsIdentifier name
  accepted : ∀ piece ∈ arguments, TypeExpr.parse piece.1 = some piece.2 ∧ piece.2.label = none

/-- The texts with dots between them. -/
def dotted (texts : List (List Char)) : List Char :=
  ['.'].intercalate texts

/-- The generic arguments as they are written, none at all for an empty list. -/
def argumentsText (arguments : List (String × TypeExpr)) : List Char :=
  if arguments.isEmpty then []
  else '<' :: (joinPieces (arguments.map fun piece => (piece.1.toList, piece.2)) ++ ['>'])

/-- The identifier with its generic arguments. -/
def PathPart.text (part : PathPart) : List Char :=
  part.name ++ argumentsText part.arguments

/-- The text of a nominal path. -/
def pathSource (parts : List PathPart) : String :=
  String.ofList (dotted (parts.map PathPart.text))

/-- The identifiers of a path, one list for each piece of it: a piece goes on to the first generic
arguments. -/
def pieceNames (parts : List PathPart) : List (List (List Char)) :=
  (parts.splitBy fun part _ => part.arguments.isEmpty).map fun piece => piece.map PathPart.name

/-- The components of a name: `Any` and `AnyObject` get their module. -/
def qualified (names : List (List Char)) : List (List Char) :=
  if names = ["Any".toList] ∨ names = ["AnyObject".toList] then "Swift".toList :: names else names

/-! ## Dotted texts -/

section Dotted

variable {texts texts' : List (List Char)}

@[simp] theorem dotted_singleton (text : List Char) : dotted [text] = text := by
  simp [dotted]

theorem dotted_cons_cons (text text' : List Char) (texts : List (List Char)) :
    dotted (text :: text' :: texts) = text ++ '.' :: dotted (text' :: texts) := by
  simp [dotted, List.intercalate_cons_cons]

theorem dotted_append (hne : texts ≠ []) (hne' : texts' ≠ []) :
    dotted (texts ++ texts') = dotted texts ++ '.' :: dotted texts' := by
  induction texts with
  | nil => exact absurd rfl hne
  | cons text texts ih =>
      cases texts with
      | nil =>
          obtain ⟨text', texts', rfl⟩ := List.exists_cons_of_ne_nil hne'
          simp [dotted_cons_cons]
      | cons next texts =>
          have hmore := ih (List.cons_ne_nil next texts)
          simp only [List.cons_append] at hmore ⊢
          rw [dotted_cons_cons, hmore, dotted_cons_cons, List.append_assoc, List.cons_append]

theorem isPath_dotted (hne : texts ≠ []) (h : ∀ text ∈ texts, IsIdentifier text) :
    IsPath (dotted texts) := by
  induction texts with
  | nil => exact absurd rfl hne
  | cons text texts ih =>
      have hfirst := (h text (by simp)).isPath
      cases texts with
      | nil => simpa using hfirst
      | cons next texts =>
          rw [dotted_cons_cons]
          exact hfirst.append (ih (by simp) fun text htext => h text (by simp [htext]))

theorem splitOn_dotted (hne : texts ≠ []) (h : ∀ text ∈ texts, IsIdentifier text) :
    (dotted texts).splitOn '.' = texts := by
  refine List.splitOn_intercalate '.' (fun text htext hdot => ?_) hne
  exact absurd ((h text htext).2 '.' hdot) (by decide)

theorem dotted_eq_iff {name : List Char} (hname : IsIdentifier name) (hne : texts ≠ [])
    (h : ∀ text ∈ texts, IsIdentifier text) : dotted texts = name ↔ texts = [name] := by
  constructor
  · intro heq
    have hsingle : (dotted [name]).splitOn '.' = [name] :=
      splitOn_dotted (by simp) (by simpa using hname)
    rw [dotted_singleton] at hsingle
    rw [← splitOn_dotted hne h, heq, hsingle]
  · rintro rfl
    simp

end Dotted

/-! ## Modules of names -/

section Qualified

variable {names : List (List Char)} {l : List (List (List Char))}

theorem qualified_of_not (h : names ∉ [["Any".toList], ["AnyObject".toList]]) :
    qualified names = names :=
  if_neg fun hnames => h (by simpa using hnames)

theorem qualified_of_length (h : names.length ≠ 1) : qualified names = names := by
  refine qualified_of_not fun hnames => h ?_
  obtain rfl | rfl : names = ["Any".toList] ∨ names = ["AnyObject".toList] := by simpa using hnames
  all_goals rfl

/-- Every name that gets a module makes the list longer. -/
theorem length_flatMap_qualified (l : List (List (List Char))) :
    l.flatten.length ≤ (l.flatMap qualified).length ∧
      ((l.flatMap qualified).length = l.flatten.length →
        ∀ names ∈ l, names ∉ [["Any".toList], ["AnyObject".toList]]) := by
  induction l with
  | nil => simp
  | cons names l ih =>
      obtain ⟨hle, hnone⟩ := ih
      rw [List.flatten_cons, List.flatMap_cons, List.length_append, List.length_append]
      by_cases hnames : names ∈ [["Any".toList], ["AnyObject".toList]]
      · have hlength : (qualified names).length = names.length + 1 := by
          rw [qualified, if_pos (by simpa using hnames), List.length_cons]
        exact ⟨by omega, fun heq => by omega⟩
      · rw [qualified_of_not hnames]
        exact ⟨by omega, fun heq => List.forall_mem_cons.2 ⟨hnames, hnone (by omega)⟩⟩

theorem flatMap_qualified_eq_iff :
    l.flatMap qualified = l.flatten ↔
      ∀ names ∈ l, names ∉ [["Any".toList], ["AnyObject".toList]] := by
  constructor
  · intro heq
    exact (length_flatMap_qualified l).2 (congrArg List.length heq)
  · intro hnone
    rw [← List.flatMap_id', List.flatMap_congr fun names hnames => ?_]
    exact qualified_of_not (hnone names hnames)

end Qualified

/-! ## The pieces of a path -/

namespace TypeExpr

/-- A piece has the components of its name. -/
theorem components_generic {names : List (List Char)} (hne : names ≠ [])
    (h : ∀ name ∈ names, IsIdentifier name) (generics : List TypeExpr) :
    (generic (String.ofList (dotted names)) generics).components = qualified names := by
  have hspelled (name : String) (hname : IsIdentifier name.toList) :
      String.ofList (dotted names) = name ↔ names = [name.toList] := by
    rw [← dotted_eq_iff hname hne h, ← String.toList_inj, String.toList_ofList]
  have hany := hspelled "Any" (isIdentifier_of_all rfl)
  have hanyObject := hspelled "AnyObject" (isIdentifier_of_all rfl)
  show ([⟨NamedType.canonicalName (String.ofList (dotted names)), generics⟩].flatMap
    fun s : Segment => s.name.toList.splitOn '.') = qualified names
  rw [List.flatMap_singleton, NamedType.canonicalName, qualified]
  simp only [hany, hanyObject]
  by_cases hnames : names = ["Any".toList]
  · subst hnames
    decide
  by_cases hnames' : names = ["AnyObject".toList]
  · subst hnames'
    decide
  · rw [if_neg hnames, if_neg hnames', if_neg (not_or.2 ⟨hnames, hnames'⟩), String.toList_ofList,
      splitOn_dotted hne h]

end TypeExpr

namespace Grammar

variable {piece : List PathPart} {rest : List Char}

/-- Only the last part of a piece has generic arguments. -/
def IsPiece (piece : List PathPart) : Prop :=
  piece.IsChain fun part _ => part.arguments.isEmpty

theorem dotted_piece (hne : piece ≠ []) (h : IsPiece piece) :
    dotted (piece.map PathPart.text) =
      dotted (piece.map PathPart.name) ++ argumentsText (piece.getLast hne).arguments := by
  induction piece with
  | nil => exact absurd rfl hne
  | cons part piece ih =>
      cases piece with
      | nil => simp [PathPart.text]
      | cons next piece =>
          obtain ⟨hpart, hmore⟩ := List.isChain_cons_cons.1 h
          have htext : part.text = part.name := by simp [PathPart.text, argumentsText, hpart]
          have hread := ih (List.cons_ne_nil next piece) hmore
          simp only [List.map_cons] at hread ⊢
          rw [dotted_cons_cons, hread, dotted_cons_cons, htext, List.getLast_cons_cons,
            List.append_assoc, List.cons_append]

/-- A piece is read as one name with the generic arguments of its last part. -/
theorem segment_piece (hne : piece ≠ []) (h : IsPiece piece)
    (hrest : (piece.getLast hne).arguments.isEmpty → rest = []) :
    segment core (dotted (piece.map PathPart.text) ++ rest) =
      some (.generic (String.ofList (dotted (piece.map PathPart.name)))
        ((piece.getLast hne).arguments.map Prod.snd), rest) := by
  have hpath : IsPath (dotted (piece.map PathPart.name)) :=
    isPath_dotted (by simpa using hne) (List.forall_mem_map.2 fun part _ => part.isIdentifier)
  rw [dotted_piece hne h]
  have haccepted := (piece.getLast hne).accepted
  generalize (piece.getLast hne).arguments = arguments at hrest haccepted ⊢
  cases arguments with
  | nil =>
      obtain rfl := hrest rfl
      have hread : dottedName (dotted (piece.map PathPart.name)) =
          some (dotted (piece.map PathPart.name), []) := by
        have hend : ∀ c ∈ ([] : List Char).head?, isIdentifierChar c = false ∧ c ≠ '.' := by simp
        simpa using dottedName_append hpath hend
      have hnone : genericArguments core [] = none := rfl
      simp [argumentsText, segment, hread, optionally, hnone]
  | cons argument arguments =>
      have hpieces : ∀ piece ∈ (argument :: arguments).map fun piece => (piece.1.toList, piece.2),
          Spells false piece.1 piece.2 :=
        List.forall_mem_map.2 fun piece hpiece =>
          (TypeExpr.parse_eq_some.1 (haccepted piece hpiece).1).unlabeled (haccepted piece hpiece).2
      have hread : genericArguments core (argumentsText (argument :: arguments) ++ rest) =
          some ((argument :: arguments).map Prod.snd, rest) := by
        simpa [argumentsText, Function.comp_def] using
          genericArguments_joinPieces (by simp) hpieces rest
      have hhead : ∀ c ∈ (argumentsText (argument :: arguments) ++ rest).head?,
          isIdentifierChar c = false ∧ c ≠ '.' := by
        simp [argumentsText]
        decide
      rw [List.append_assoc, segment, dottedName_append hpath hhead]
      simp [optionally, hread]

/-! ## The path -/

theorem nominal_pieces {pieces : List (List PathPart)} (hne : pieces ≠ [])
    (hnil : ∀ piece ∈ pieces, piece ≠ []) (hpieces : ∀ piece ∈ pieces, IsPiece piece)
    (hends : pieces.IsChain fun piece next => ∃ (hne : piece ≠ []) (_ : next ≠ []),
      (piece.getLast hne).arguments.isEmpty = false) :
    ∃ t, nominal core (dotted (pieces.flatten.map PathPart.text)) = some (t, []) ∧ t.IsNominal ∧
      t.components = (pieces.map fun piece => piece.map PathPart.name).flatMap qualified := by
  induction pieces with
  | nil => exact absurd rfl hne
  | cons piece pieces ih =>
      have hnonempty := hnil piece (by simp)
      have hnames : piece.map PathPart.name ≠ [] := by simpa using hnonempty
      have hcomponents := TypeExpr.components_generic hnames
        (List.forall_mem_map.2 fun part _ => part.isIdentifier)
        ((piece.getLast hnonempty).arguments.map Prod.snd)
      cases pieces with
      | nil =>
          have hsegment := segment_piece hnonempty (hpieces piece (by simp)) fun _ => rfl
          have hread := nominal_of_segment hsegment (by simp)
          exact ⟨_, by simpa using hread, TypeExpr.isNominal_generic _ _, by simpa using hcomponents⟩
      | cons next pieces =>
          obtain ⟨⟨_, hnext, hend⟩, hends⟩ := List.isChain_cons_cons.1 hends
          obtain ⟨t, hread, hnominal, ht⟩ := ih (by simp) (fun p hp => hnil p (by simp [hp]))
            (fun p hp => hpieces p (by simp [hp])) hends
          have hsegment := segment_piece hnonempty (hpieces piece (by simp))
            (fun hempty => absurd hempty (by simp [hend]) : _ →
              '.' :: dotted ((next :: pieces).flatten.map PathPart.text) = [])
          have htext : dotted ((piece :: next :: pieces).flatten.map PathPart.text) =
              dotted (piece.map PathPart.text) ++
                '.' :: dotted ((next :: pieces).flatten.map PathPart.text) := by
            rw [List.flatten_cons, List.map_append,
              dotted_append (by simpa using hnonempty) (by simp [hnext])]
          obtain ⟨hpath, hboth⟩ := (TypeExpr.isNominal_generic _ _).withInner hnominal
          rw [htext]
          refine ⟨_, nominal_of_dot hsegment hread, hpath, ?_⟩
          rw [hboth, hcomponents, ht]
          simp

/-- The path without its first identifier begins with a mark. -/
theorem dotted_parts (part : PathPart) (parts : List PathPart) :
    ∃ tail, dotted ((part :: parts).map PathPart.text) = part.name ++ tail ∧
      ∀ c ∈ tail.head?, c = '<' ∨ c = '.' := by
  have harguments : ∀ c ∈ (argumentsText part.arguments).head?, c = '<' := by
    unfold argumentsText
    split <;> simp
  cases parts with
  | nil => exact ⟨_, by simp [PathPart.text], fun c hc => .inl (harguments c hc)⟩
  | cons next parts =>
      refine ⟨argumentsText part.arguments ++ '.' :: dotted ((next :: parts).map PathPart.text),
        by simp [dotted_cons_cons, PathPart.text], ?_⟩
      cases hempty : argumentsText part.arguments with
      | nil => simp
      | cons d tail => exact fun c hc => .inl (harguments c (by simpa [hempty] using hc))

/-- The whole text of a path is read as a nominal path. -/
theorem spells_of_nominal {parts : List PathPart} {t : TypeExpr} {mayHaveLabel : Bool}
    (hne : parts ≠ []) (h : nominal core (dotted (parts.map PathPart.text)) = some (t, [])) :
    Spells mayHaveLabel (dotted (parts.map PathPart.text)) t := by
  obtain ⟨part, parts, rfl⟩ := List.exists_cons_of_ne_nil hne
  obtain ⟨tail, htext, htail⟩ := dotted_parts part parts
  rw [htext] at h ⊢
  have hname := part.isIdentifier.isPath
  have hdelimiter : ∀ c ∈ tail.head?, isIdentifierChar c = false ∧ isBlank c = false ∧ c ≠ ':' := by
    intro c hc
    rcases htail c hc with rfl | rfl <;> decide
  rw [← atomRule_of_name core (head_append_of_opens _ (head_of_isPath hname))] at h
  refine spells_of_atom (undecorated_path hname (fun c hc => (hdelimiter c hc).1) ?_)
    (inoutMark_path hname (fun c hc => (hdelimiter c hc).1) fun _ c hc => (hdelimiter c hc).2.1)
    (atom_of_rule h (by simp))
  rw [skipBlanks_of_head fun c hc => (hdelimiter c hc).2.1]
  exact fun c hc => (hdelimiter c hc).2.2

end Grammar

/-! ## Accepted texts -/

namespace TypeExpr

/-- A nominal path is accepted, and the components of its type are the identifiers of the path, with
the module of each piece that is nothing but `Any` or `AnyObject`. So they are the identifiers of
the path, but for the module of a path that is one of these two as a whole, just if no piece of a
longer path is one of them. -/
theorem components_parse_path {parts : List PathPart} (hne : parts ≠ []) :
    ∃ t, parse (pathSource parts) = some t ∧
      t.components = (pieceNames parts).flatMap qualified ∧
      (t.components = qualified (parts.map PathPart.name) ↔
        parts.length = 1 ∨
          ∀ names ∈ pieceNames parts, names ∉ [["Any".toList], ["AnyObject".toList]]) := by
  obtain ⟨pieces, hpieces⟩ : ∃ pieces, parts.splitBy (fun part _ => part.arguments.isEmpty) =
    pieces := ⟨_, rfl⟩
  obtain ⟨hparts, hnil, hchains, hends⟩ := List.splitBy_eq_iff.1 hpieces
  have hnames : pieceNames parts = pieces.map fun piece => piece.map PathPart.name := by
    rw [pieceNames, hpieces]
  obtain ⟨t, hread, -, ht⟩ := nominal_pieces (hpieces ▸ List.splitBy_ne_nil.2 hne)
    (fun piece hpiece hempty => hnil (hempty ▸ hpiece)) hchains hends
  rw [← hparts] at hread
  have hspells : Spells true (dotted (parts.map PathPart.text)) t := spells_of_nominal hne hread
  refine ⟨t, parse_eq_some.2 (by simpa [pathSource] using hspells), by rw [ht, hnames], ?_⟩
  rw [ht, ← hnames]
  by_cases hsingle : parts.length = 1
  · obtain ⟨part, rfl⟩ := List.length_eq_one_iff.1 hsingle
    have hpiece : pieceNames [part] = [[part.name]] := rfl
    simp [hpiece]
  · have hflatten : parts.map PathPart.name = (pieceNames parts).flatten := by
      rw [hnames, ← List.map_flatten, ← hparts]
    rw [qualified_of_length (by simpa using hsingle), hflatten, flatMap_qualified_eq_iff]
    exact (or_iff_right hsingle).symm

/-- `Any` behind the generic arguments of `A<B>` gets a module, and behind `A` it gets none. -/
theorem components_parse_path_any :
    ∃ t u, parse "A<B>.Any" = some t ∧ parse "A.Any" = some u ∧
      t.components = ["A".toList, "Swift".toList, "Any".toList] ∧
      u.components = ["A".toList, "Any".toList] := by
  have hargument : parse "B" = some (named "B") := by decide +kernel
  have ha : IsIdentifier "A".toList := isIdentifier_of_all rfl
  have hany : IsIdentifier "Any".toList := isIdentifier_of_all rfl
  let generic : PathPart := ⟨"A".toList, [("B", named "B")], ha, by simpa using ⟨hargument, rfl⟩⟩
  let plain : PathPart := ⟨"A".toList, [], ha, by simp⟩
  let last : PathPart := ⟨"Any".toList, [], hany, by simp⟩
  obtain ⟨t, ht, htcomponents, -⟩ := components_parse_path (List.cons_ne_nil generic [last])
  obtain ⟨u, hu, hucomponents, -⟩ := components_parse_path (List.cons_ne_nil plain [last])
  exact ⟨t, u, ht, hu, htcomponents, hucomponents⟩

end TypeExpr

end SwiftSurface
