import SwiftSurface.Proofs.Grammar.Accepted
import SwiftSurface.Proofs.Grammar.Grouping

/-!
# Short spellings and the types they stand for

`[T]`, `[K:V]` and `(T)?` are read as the generic types that they stand for, and so are the texts
that spell these types out, whatever accepted texts stand for `T`, `K` and `V` (`parse_shortForms`).
-/

namespace SwiftSurface

open Grammar SwiftSurface.Parser Text

namespace Grammar

/-- The optional type that a mark stands for. -/
def optionalName (mark : Char) : String :=
  if mark = '!' then "Swift.ImplicitlyUnwrappedOptional" else "Swift.Optional"

/-- The type that the marks make of a type: each of them wraps what stands before it. -/
def wrapped (t : TypeExpr) (marks : List Char) : TypeExpr :=
  marks.foldl (fun t mark => .generic (optionalName mark) [t]) t

/-- The text of the type that the marks make of the type of a text, without marks. -/
def spelledOut (source : String) (marks : List Char) : String :=
  marks.foldl (fun text mark => optionalName mark ++ "<" ++ text ++ ">") source

variable {s s' : List Char} {t value : TypeExpr} {mayHaveLabel : Bool}

/-! ## Generic types -/

section Generic

variable {pieces : List (List Char × TypeExpr)} {name : String}

theorem genericArguments_joinPieces (hne : pieces ≠ [])
    (h : ∀ piece ∈ pieces, Spells false piece.1 piece.2) (rest : List Char) :
    genericArguments core ('<' :: (joinPieces pieces ++ '>' :: rest)) =
      some (pieces.map Prod.snd, rest) := by
  have hlist : separatedBy ',' (unlabeled core) (joinPieces pieces ++ '>' :: rest) =
      (pieces.map Prod.snd, '>' :: rest) := separatedBy_joinPieces (by simp) hne h rfl
  rw [genericArguments_cons, hlist]
  cases pieces with
  | nil => exact absurd rfl hne
  | cons piece pieces => simp

/-- A name with accepted texts for its generic arguments. -/
theorem spells_generic (hname : IsPath name.toList) (hne : pieces ≠ [])
    (h : ∀ piece ∈ pieces, Spells false piece.1 piece.2) :
    Spells mayHaveLabel (name.toList ++ '<' :: (joinPieces pieces ++ ['>']))
      (.generic name (pieces.map Prod.snd)) := by
  have hhead : ∀ c ∈ ('<' :: (joinPieces pieces ++ ['>'])).head?,
      isIdentifierChar c = false ∧ c ≠ '.' := by
    simp; decide
  have hsegment : segment core (name.toList ++ '<' :: (joinPieces pieces ++ ['>'])) =
      some (.generic name (pieces.map Prod.snd), []) := by
    simp [segment, dottedName_append hname hhead, optionally,
      genericArguments_joinPieces hne h []]
  have hnominal := nominal_of_segment hsegment (by simp)
  rw [← atomRule_of_name core (head_append_of_opens _ (head_of_isPath hname))] at hnominal
  have htail := fun c hc => (hhead c hc).1
  refine spells_of_atom (undecorated_path hname htail ?_) (inoutMark_path hname htail ?_)
    (atom_of_rule hnominal (by simp))
  · rw [skipBlanks_of_head (by simp; decide)]
    simp
  · exact fun _ => by simp; decide

end Generic

/-! ## Collections -/

theorem spells_of_collection (h : collection core ('[' :: s) = some (t, [])) :
    Spells mayHaveLabel ('[' :: s) t := by
  rw [← atomRule_of_bracket] at h
  exact spells_of_atom (undecorated_of_head (by simp; decide)) (inoutMark_of_head (by simp))
    (atom_of_rule h (by simp))

theorem spells_array (h : Spells false s t) :
    Spells mayHaveLabel ('[' :: (s ++ [']'])) (.generic "Swift.Array" [t]) := by
  have hread : unlabeled core (s ++ [']']) = some (t, [']']) :=
    h.append (by decide) (by simp) []
  have hcolon : padded (char ':') [']'] = none := by decide
  refine spells_of_collection ?_
  simp [collection, between, followedBy, after, hread, optionally, hcolon]

theorem spells_dictionary (h : Spells false s t) (h' : Spells false s' value) :
    Spells mayHaveLabel ('[' :: (s ++ ':' :: (s' ++ [']'])))
      (.generic "Swift.Dictionary" [t, value]) := by
  have hkey : unlabeled core (s ++ ':' :: (s' ++ [']'])) = some (t, ':' :: (s' ++ [']'])) :=
    h.append (by decide) (by simp) _
  have hcolon := padded_char_self (c := ':') (by decide) (s' ++ [']'])
  have hvalue : unlabeled core (skipBlanks (s' ++ [']'])) = some (value, [']']) :=
    (padded_congr (skipBlanks_skipBlanks _)).trans (h'.append (by decide) (by simp) [])
  refine spells_of_collection ?_
  simp [collection, between, followedBy, after, hkey, optionally, hcolon, hvalue]

/-! ## Optional types -/

theorem many_optionalMark {marks : List Char} (h : ∀ mark ∈ marks, mark = '?' ∨ mark = '!') :
    many optionalMark marks = (marks.map optionalName, []) := by
  induction marks with
  | nil => exact many_of_none rfl
  | cons mark marks ih =>
      have hread : optionalMark (mark :: marks) = some (optionalName mark, marks) := by
        rcases h mark (by simp) with rfl | rfl <;> rfl
      rw [many_of_some hread (by simp), ih fun next hnext => h next (by simp [hnext])]
      rfl

theorem isPath_optionalName (mark : Char) : IsPath (optionalName mark).toList := by
  unfold optionalName
  split
  · exact yields_optionalMark ['!'] _ [] rfl
  · exact yields_optionalMark ['?'] _ [] rfl

/-- A type in parentheses with optional marks behind it. -/
theorem spells_wrapped {marks : List Char} (h : Spells true s t) (hlabel : t.label = none)
    (hmarks : ∀ mark ∈ marks, mark = '?' ∨ mark = '!') :
    Spells mayHaveLabel ('(' :: (s ++ ')' :: marks)) (wrapped t marks) := by
  have hgroup := group_of_spells h marks
  rw [groupOf_unlabeled hlabel, ← atomRule_of_paren] at hgroup
  refine spells_of_atom (undecorated_of_paren _) (inoutMark_of_head (by simp)) ?_
  rw [atom, hgroup]
  simp [many_optionalMark hmarks, wrapped, List.foldl_map]

end Grammar

/-! ## Accepted texts -/

namespace TypeExpr

variable {source source' : String} {t value : TypeExpr}

theorem parse_array (h : parse source = some t) (hlabel : t.label = none) :
    parse ("[" ++ source ++ "]") = some (generic "Swift.Array" [t]) := by
  rw [parse_eq_some] at h ⊢
  have harray : Spells true _ (generic "Swift.Array" [t]) := spells_array (h.unlabeled hlabel)
  simpa using harray

theorem parse_dictionary (h : parse source = some t) (h' : parse source' = some value)
    (hlabel : t.label = none) (hlabel' : value.label = none) :
    parse ("[" ++ source ++ ":" ++ source' ++ "]") =
      some (generic "Swift.Dictionary" [t, value]) := by
  rw [parse_eq_some] at h h' ⊢
  have hdictionary : Spells true _ (generic "Swift.Dictionary" [t, value]) :=
    spells_dictionary (h.unlabeled hlabel) (h'.unlabeled hlabel')
  simpa using hdictionary

theorem parse_wrapped {marks : String} (h : parse source = some t) (hlabel : t.label = none)
    (hmarks : ∀ mark ∈ marks.toList, mark = '?' ∨ mark = '!') :
    parse ("(" ++ source ++ ")" ++ marks) = some (wrapped t marks.toList) := by
  rw [parse_eq_some] at h ⊢
  have hwrapped : Spells true _ (wrapped t marks.toList) := spells_wrapped h hlabel hmarks
  simpa using hwrapped

/-- A generic type, spelled out. -/
theorem parse_generic {name : String} {pieces : List (String × TypeExpr)}
    (hname : IsPath name.toList) (hne : pieces ≠ [])
    (h : ∀ piece ∈ pieces, parse piece.1 = some piece.2 ∧ piece.2.label = none) :
    parse (name ++ "<" ++ ",".intercalate (pieces.map Prod.fst) ++ ">") =
      some (generic name (pieces.map Prod.snd)) := by
  have hpieces : ∀ piece ∈ pieces.map fun piece => (piece.1.toList, piece.2),
      Spells false piece.1 piece.2 :=
    List.forall_mem_map.2 fun piece hpiece =>
      (parse_eq_some.1 (h piece hpiece).1).unlabeled (h piece hpiece).2
  have hgeneric : Spells true _ _ := spells_generic hname (by simpa using hne) hpieces
  rw [parse_eq_some]
  simpa [joinPieces, String.toList_intercalate, Function.comp_def] using hgeneric

theorem parse_spelledOut {marks : List Char} (h : parse source = some t) (hlabel : t.label = none) :
    parse (spelledOut source marks) = some (wrapped t marks) := by
  induction marks generalizing source t with
  | nil => exact h
  | cons mark marks ih =>
      have hread := parse_generic (isPath_optionalName mark) (List.cons_ne_nil (source, t) [])
        (by simpa using ⟨h, hlabel⟩)
      have hstep : parse (optionalName mark ++ "<" ++ source ++ ">") =
          some (generic (optionalName mark) [t]) := by
        simpa using hread
      simp only [spelledOut, wrapped, List.foldl_cons] at ih ⊢
      exact ih hstep rfl

/-- The short spellings are read as the types that they stand for, and so are the texts that spell
these out. -/
theorem parse_shortForms :
    (∀ source t, parse source = some t → t.label = none →
      parse ("[" ++ source ++ "]") = some (generic "Swift.Array" [t]) ∧
      parse ("Swift.Array<" ++ source ++ ">") = some (generic "Swift.Array" [t])) ∧
    (∀ source source' t value, parse source = some t → parse source' = some value →
      t.label = none → value.label = none →
      parse ("[" ++ source ++ ":" ++ source' ++ "]") =
        some (generic "Swift.Dictionary" [t, value]) ∧
      parse ("Swift.Dictionary<" ++ source ++ "," ++ source' ++ ">") =
        some (generic "Swift.Dictionary" [t, value])) ∧
    (∀ source t (marks : String), parse source = some t → t.label = none →
      (∀ mark ∈ marks.toList, mark = '?' ∨ mark = '!') →
      parse ("(" ++ source ++ ")" ++ marks) = some (wrapped t marks.toList) ∧
      parse (spelledOut source marks.toList) = some (wrapped t marks.toList)) := by
  refine ⟨fun source t h hlabel => ⟨parse_array h hlabel, ?_⟩,
    fun source source' t value h h' hlabel hlabel' => ⟨parse_dictionary h h' hlabel hlabel', ?_⟩,
    fun source t marks h hlabel hmarks =>
      ⟨parse_wrapped h hlabel hmarks, parse_spelledOut h hlabel⟩⟩
  · have harray := parse_generic isPath_array (List.cons_ne_nil (source, t) [])
      (by simpa using ⟨h, hlabel⟩)
    simpa [← String.append_assoc] using harray
  · have hdictionary := parse_generic isPath_dictionary
      (List.cons_ne_nil (source, t) [(source', value)]) (by simpa using ⟨⟨h, hlabel⟩, h', hlabel'⟩)
    simpa [← String.append_assoc] using hdictionary

theorem parse_shortForms_convention :
    ∃ callback, parse "@convention[c] (T) -> ()" = some callback ∧
      parse ("[" ++ "@convention[c] (T) -> ()" ++ "]") = some (generic "Swift.Array" [callback]) ∧
      parse ("[" ++ "K" ++ ":" ++ "@convention[c] (T) -> ()" ++ "]") =
        parse ("Swift.Dictionary<" ++ "K" ++ "," ++ "@convention[c] (T) -> ()" ++ ">") ∧
      parse ("(" ++ "@convention[c] (T) -> ()" ++ ")" ++ "?!") =
        some (generic "Swift.ImplicitlyUnwrappedOptional"
          [generic "Swift.Optional" [callback]]) := by
  have hkey : parse "K" = some (named "K") := by decide +kernel
  have hcallback : parse "@convention[c] (T) -> ()" =
      some ((closure (named "T") unit false).withAttribute ⟨"convention", ["c"]⟩) := by
    decide +kernel
  obtain ⟨harray, hdictionary, hmarks⟩ := parse_shortForms
  obtain ⟨hshort, hlong⟩ := hdictionary _ _ _ _ hkey hcallback rfl rfl
  exact ⟨_, hcallback, (harray _ _ hcallback rfl).1, hshort.trans hlong.symm,
    (hmarks _ _ "?!" hcallback rfl (by simp)).1⟩

end TypeExpr

end SwiftSurface
