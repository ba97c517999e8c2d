import SwiftSurface.Proofs.Parsing
import SwiftSurface.Proofs.Text
import SwiftSurface.Proofs.TypeExpr.Respelling

/-!
# Reading the tokens of a written expression

A token is read to its end if what follows cannot continue it. In a written expression a name is
followed by a blank, a comma, a closing mark, a dot or an opening mark, and each lemma asks for no
more than its token needs.
-/

namespace SwiftSurface.Grammar

open SwiftSurface.Parser Text

/-! ## Characters -/

theorem not_isBlank_of_isIdentifierChar {c : Char} (h : isIdentifierChar c) :
    isBlank c = false := by
  rw [isIdentifierChar, Bool.and_eq_true] at h
  simpa using h.1

theorem ne_of_isIdentifierChar {c d : Char} (h : isIdentifierChar c)
    (hd : isIdentifierChar d = false) : c ≠ d := by
  rintro rfl
  simp [h] at hd

/-! ## Names -/

theorem identifier_append {cs rest : List Char} (h : IsIdentifier cs)
    (hrest : ∀ c ∈ rest.head?, isIdentifierChar c = false) :
    identifier (cs ++ rest) = some (cs, rest) :=
  run_append h.1 h.2 fun c hc => by simp [hrest c hc]

theorem identifier_of_head {s : List Char} (h : ∀ c ∈ s.head?, isIdentifierChar c = false) :
    identifier s = none :=
  run_of_not fun c hc => by simp [h c hc]

theorem isIdentifier_of_identifier {s cs rest : List Char}
    (h : identifier s = some (cs, rest)) : IsIdentifier cs := by
  obtain ⟨-, hne, hall, -⟩ := run_eq_some h
  exact ⟨hne, hall⟩

theorem many_dot_identifier {more : List (List Char)} {rest : List Char}
    (hmore : ∀ name ∈ more, IsIdentifier name)
    (hrest : ∀ c ∈ rest.head?, isIdentifierChar c = false ∧ c ≠ '.') :
    many (after (char '.') identifier) (more.flatMap ('.' :: ·) ++ rest) = (more, rest) := by
  induction more with
  | nil =>
      refine many_of_none ?_
      cases rest with
      | nil => rfl
      | cons c rest => simp [after, char_cons_of_ne (hrest c rfl).2]
  | cons name more ih =>
      have hnext : ∀ c ∈ (more.flatMap ('.' :: ·) ++ rest).head?, isIdentifierChar c = false := by
        cases more with
        | nil => exact fun c hc => (hrest c hc).1
        | cons _ _ => simp; decide
      have hread : after (char '.') identifier
          (((name :: more).flatMap ('.' :: ·)) ++ rest) =
          some (name, more.flatMap ('.' :: ·) ++ rest) := by
        simp only [List.flatMap_cons, List.cons_append, List.append_assoc, after, char_cons_self]
        exact identifier_append (hmore name (by simp)) hnext
      rw [many_of_some hread ?_, ih fun name hname => hmore name (by simp [hname])]
      simp only [List.flatMap_cons, List.cons_append, List.append_assoc, List.length_cons,
        List.length_append]
      omega

/-- A path is read to its end. -/
theorem dottedName_append {cs rest : List Char} (h : IsPath cs)
    (hrest : ∀ c ∈ rest.head?, isIdentifierChar c = false ∧ c ≠ '.') :
    dottedName (cs ++ rest) = some (cs, rest) := by
  obtain ⟨first, more, hfirst, hmore, rfl⟩ := h
  have hnext : ∀ c ∈ (more.flatMap ('.' :: ·) ++ rest).head?, isIdentifierChar c = false := by
    cases more with
    | nil => exact fun c hc => (hrest c hc).1
    | cons _ _ => simp; decide
  rw [dottedName, List.append_assoc, identifier_append hfirst hnext]
  simp [many_dot_identifier hmore hrest]

theorem isPath_of_dottedName {s cs rest : List Char} (h : dottedName s = some (cs, rest)) :
    IsPath cs := by
  obtain ⟨⟨first, s'⟩, hfirst, h⟩ := Option.map_eq_some_iff.1 h
  obtain ⟨rfl, -⟩ := Prod.mk.inj h
  have hitem : Yields identifier IsIdentifier := fun _ _ _ => isIdentifier_of_identifier
  exact ⟨first, _, isIdentifier_of_identifier hfirst, (hitem.after (char '.')).many s', rfl⟩

theorem dottedName_of_head {s : List Char} (h : ∀ c ∈ s.head?, isIdentifierChar c = false) :
    dottedName s = none := by
  rw [dottedName, identifier_of_head h, Option.map_none]

/-! ## Attributes -/

theorem joinChars_cons (separator piece : List Char) (pieces : List (List Char)) :
    joinChars separator (piece :: pieces) = piece ++ pieces.flatMap (separator ++ ·) := by
  induction pieces generalizing piece with
  | nil => simp [joinChars]
  | cons next pieces ih => simp [joinChars, ih]

theorem attributeParameter_append (cs : List Char) {rest : List Char} (hne : cs ≠ [])
    (hcomma : ',' ∉ cs) (hclosing : ')' ∉ cs) (hrest : ∀ c ∈ rest.head?, c = ',' ∨ c = ')') :
    attributeParameter ')' (cs ++ rest) = some (String.ofList (trim cs), rest) := by
  have hread : run (fun c => c != ',' && c != ')') (cs ++ rest) = some (cs, rest) := by
    refine run_append hne (fun c hc => ?_) fun c hc => ?_
    · have h₁ : c ≠ ',' := fun h => hcomma (h ▸ hc)
      have h₂ : c ≠ ')' := fun h => hclosing (h ▸ hc)
      simp [h₁, h₂]
    · rcases hrest c hc with rfl | rfl <;> simp
  rw [attributeParameter, hread, Option.map_some]

theorem many_comma_attributeParameter {parameters : List String} (rest : List Char)
    (hnormal : ∀ p ∈ parameters, trim p.toList = p.toList ∧ ',' ∉ p.toList)
    (henclosed : ∀ p ∈ parameters, ')' ∉ p.toList) :
    many (after (char ',') (attributeParameter ')'))
      ((parameters.map String.toList).flatMap ([',', ' '] ++ ·) ++ ')' :: rest) =
      (parameters, ')' :: rest) := by
  induction parameters with
  | nil => exact many_of_none rfl
  | cons p parameters ih =>
      obtain ⟨htrim, hcomma⟩ := hnormal p (by simp)
      have hclosing := henclosed p (by simp)
      have hread : after (char ',') (attributeParameter ')')
          (((p :: parameters).map String.toList).flatMap ([',', ' '] ++ ·) ++ ')' :: rest) =
          some (p, (parameters.map String.toList).flatMap ([',', ' '] ++ ·) ++ ')' :: rest) := by
        have hnext : ∀ c ∈ ((parameters.map String.toList).flatMap ([',', ' '] ++ ·) ++
            ')' :: rest).head?, c = ',' ∨ c = ')' := by
          cases parameters <;> simp
        have hparameter := attributeParameter_append (' ' :: p.toList) (by simp)
          (by simpa using hcomma) (by simpa using hclosing) hnext
        rw [trim_blank, htrim, String.ofList_toList] at hparameter
        simpa [after] using hparameter
      rw [many_of_some hread (by simp; omega), ih (fun p hp => hnormal p (by simp [hp]))
        fun p hp => henclosed p (by simp [hp])]

/-- The parameters of an attribute are read back if they do not begin with an empty one. -/
theorem attributeParameters_write {p : String} {parameters : List String} (rest : List Char)
    (hne : p ≠ "") (hnormal : ∀ q ∈ p :: parameters, trim q.toList = q.toList ∧ ',' ∉ q.toList)
    (henclosed : ∀ q ∈ p :: parameters, ')' ∉ q.toList) :
    attributeParameters '(' ')'
      ('(' :: joinChars [',', ' '] ((p :: parameters).map String.toList) ++ ')' :: rest) =
      some (p :: parameters, rest) := by
  obtain ⟨htrim, hcomma⟩ := hnormal p (by simp)
  have hnext : ∀ c ∈ ((parameters.map String.toList).flatMap ([',', ' '] ++ ·) ++
      ')' :: rest).head?, c = ',' ∨ c = ')' := by
    cases parameters <;> simp
  have hfirst := attributeParameter_append p.toList (by simpa using hne) hcomma
    (henclosed p (by simp)) hnext
  rw [htrim, String.ofList_toList] at hfirst
  have hmore := many_comma_attributeParameter rest
    (fun q (hq : q ∈ parameters) => hnormal q (by simp [hq]))
    fun q hq => henclosed q (by simp [hq])
  rw [List.map_cons, joinChars_cons, List.cons_append, List.append_assoc, attributeParameters,
    between, followedBy, after, char_cons_self]
  simp only [separatedBy_of_some hfirst, hmore, char_cons_self, Option.map_some]

theorem attributeParameters_of_head {opening closing : Char} {s : List Char}
    (h : ∀ c ∈ s.head?, c ≠ opening) : attributeParameters opening closing s = none := by
  cases s with
  | nil => rfl
  | cons c s =>
      simp [attributeParameters, between, followedBy, after, char_cons_of_ne (h c rfl)]

theorem attributeParameter_of_comma (s : List Char) : attributeParameter ')' (',' :: s) = none := by
  rw [attributeParameter, run_of_not (by simp), Option.map_none]

theorem attributeMark_cons {name : List Char} {rest : List Char} (h : IsIdentifier name)
    (hrest : ∀ c ∈ rest.head?, isIdentifierChar c = false) :
    attributeMark ('@' :: name ++ rest) =
      some (let found := optionally
              (orElse (attributeParameters '(' ')') (attributeParameters '[' ']')) rest
        ({ name := String.ofList name, parameters := found.1.getD [] }, found.2)) := by
  rw [attributeMark, List.cons_append, after, char_cons_self]
  simp [identifier_append h hrest]

/-- An attribute that comes back is read to its end, if what stands behind it continues neither the
name nor the parameters. -/
theorem attributeMark_write {a : Attribute} (hnormal : a.Normal) (henclosed : a.Enclosed)
    (h : a.respells) {rest : List Char}
    (hrest : ∀ c ∈ rest.head?, isIdentifierChar c = false ∧ c ≠ '(' ∧ c ≠ '[') :
    attributeMark (a.write ++ rest) = some (a.respelled, rest) := by
  obtain ⟨name, parameters⟩ := a
  cases parameters with
  | nil =>
      have hround : attributeParameters '(' ')' rest = none :=
        attributeParameters_of_head fun c hc => (hrest c hc).2.1
      have hsquare : attributeParameters '[' ']' rest = none :=
        attributeParameters_of_head fun c hc => (hrest c hc).2.2
      rw [Attribute.write, List.append_nil, attributeMark_cons hnormal.1 fun c hc => (hrest c hc).1]
      simp [optionally, orElse, hround, hsquare, Attribute.respelled]
  | cons p parameters =>
      rw [Attribute.write, List.append_assoc, attributeMark_cons hnormal.1 (by simp; decide)]
      by_cases hp : p = ""
      · obtain rfl : parameters = [] := by
          cases parameters with
          | nil => rfl
          | cons => simp [Attribute.respells, hp] at h
        have hnone : attributeParameter ')' (')' :: rest) = none := by
          rw [attributeParameter, run_of_not (by simp), Option.map_none]
        have hread : attributeParameters '(' ')' ('(' :: ')' :: rest) = some ([], rest) := by
          simp [attributeParameters, between, followedBy, after, separatedBy_of_none hnone]
        simp [optionally, orElse, hp, joinChars, hread, Attribute.respelled]
      · have hread := attributeParameters_write rest hp hnormal.2 henclosed
        rw [List.map_cons, List.cons_append] at hread
        simp [optionally, orElse, hread, Attribute.respelled, hp]

/-- Of an attribute that does not come back the name is read, and the parameters are left. -/
theorem attributeMark_write_of_not {a : Attribute} (hnormal : a.Normal)
    (h : a.respells = false) (s : List Char) :
    ∃ rest, attributeMark (a.write ++ s) = some (⟨a.name, []⟩, '(' :: ',' :: rest) ∧
      a.write ++ s = '@' :: a.name.toList ++ '(' :: ',' :: rest := by
  obtain ⟨name, parameters⟩ := a
  match parameters with
  | p :: q :: parameters =>
      obtain rfl : p = "" := by simpa [Attribute.respells] using h
      have hnone (rest : List Char) : attributeParameters '(' ')' ('(' :: ',' :: rest) = none := by
        simp [attributeParameters, between, followedBy, after,
          separatedBy_of_none (attributeParameter_of_comma rest), char_cons_of_ne]
      have hsquare (rest : List Char) : attributeParameters '[' ']' ('(' :: rest) = none :=
        attributeParameters_of_head (by simp)
      rw [Attribute.write, List.append_assoc, attributeMark_cons hnormal.1 (by simp; decide)]
      simp [optionally, orElse, joinChars_cons, hnone, hsquare]

/-! ## The decorations in front of a type -/

theorem attributeMark_of_head {s : List Char} (h : ∀ c ∈ s.head?, c ≠ '@') :
    attributeMark s = none := by
  cases s with
  | nil => rfl
  | cons c s => simp [attributeMark, after, char_cons_of_ne (h c rfl)]

/-- The attributes of a type, each with the blank after it. -/
def writeAttributes (attributes : List Attribute) : List Char :=
  attributes.flatMap fun a => a.write ++ [' ']

theorem writeAttributes_cons (a : Attribute) (attributes : List Attribute) (s : List Char) :
    writeAttributes (a :: attributes) ++ s =
      a.write ++ ' ' :: (writeAttributes attributes ++ s) := by
  simp [writeAttributes]

theorem head_writeAttributes {attributes : List Attribute} {s : List Char}
    (hs : ∀ c ∈ s.head?, isBlank c = false) :
    ∀ c ∈ (writeAttributes attributes ++ s).head?, isBlank c = false := by
  cases attributes with
  | nil => exact hs
  | cons a attributes => simp [writeAttributes, Attribute.write]; decide

/-- A blank continues neither the name nor the parameters of an attribute. -/
theorem blank_behind_attributeMark (s : List Char) :
    ∀ c ∈ (' ' :: s).head?, isIdentifierChar c = false ∧ c ≠ '(' ∧ c ≠ '[' := by
  simp; decide

/-- An attribute is read with the blanks around it. -/
theorem padded_attributeMark {a left : Attribute} {s rest : List Char}
    (h : attributeMark (a.write ++ s) = some (left, rest)) :
    padded attributeMark (a.write ++ s) = some (left, skipBlanks rest) := by
  have hskip : skipBlanks (a.write ++ s) = a.write ++ s :=
    skipBlanks_of_head (by simp [Attribute.write]; decide)
  rw [padded, hskip, h, Option.map_some]

/-- The attributes in front of something that is neither a blank nor an attribute are read back. -/
theorem many_attributeMark_write {attributes : List Attribute} {s : List Char}
    (hnormal : ∀ a ∈ attributes, a.Normal) (henclosed : ∀ a ∈ attributes, a.Enclosed)
    (h : ∀ a ∈ attributes, a.respells) (hs : ∀ c ∈ s.head?, isBlank c = false ∧ c ≠ '@') :
    many (padded attributeMark) (writeAttributes attributes ++ s) =
      (attributes.map (·.respelled), s) := by
  have hblank : ∀ c ∈ s.head?, isBlank c = false := fun c hc => (hs c hc).1
  induction attributes with
  | nil =>
      refine many_of_none ?_
      rw [padded, writeAttributes, List.flatMap_nil, List.nil_append, skipBlanks_of_head hblank,
        attributeMark_of_head fun c hc => (hs c hc).2, Option.map_none]
  | cons a attributes ih =>
      have hread := padded_attributeMark (attributeMark_write (hnormal a (by simp))
        (henclosed a (by simp)) (h a (by simp))
        (blank_behind_attributeMark (writeAttributes attributes ++ s)))
      rw [skipBlanks_blank_of_head (head_writeAttributes hblank)] at hread
      rw [writeAttributes_cons, many_of_some hread (by simp; omega),
        ih (fun a ha => hnormal a (by simp [ha])) (fun a ha => henclosed a (by simp [ha]))
          fun a ha => h a (by simp [ha])]
      rfl

/-- If some attribute does not come back, then its parameters are left unread. -/
theorem many_attributeMark_write_of_not {attributes : List Attribute} (s : List Char)
    (hnormal : ∀ a ∈ attributes, a.Normal) (henclosed : ∀ a ∈ attributes, a.Enclosed)
    (h : ¬ ∀ a ∈ attributes, a.respells) :
    ∃ read rest, many (padded attributeMark) (writeAttributes attributes ++ s) =
      (read, '(' :: ',' :: rest) := by
  induction attributes with
  | nil => simp at h
  | cons a attributes ih =>
      rw [writeAttributes_cons]
      cases ha : a.respells with
      | true =>
          have hread := padded_attributeMark (attributeMark_write (hnormal a (by simp))
            (henclosed a (by simp)) ha
            (blank_behind_attributeMark (writeAttributes attributes ++ s)))
          have hrest : ¬ ∀ a ∈ attributes, a.respells := by simpa [ha] using h
          have hattributes : attributes ≠ [] := by
            rintro rfl
            simp at hrest
          have hhead : ∀ c ∈ (writeAttributes attributes ++ s).head?, isBlank c = false := by
            cases attributes with
            | nil => exact absurd rfl hattributes
            | cons b attributes => simp [writeAttributes, Attribute.write]; decide
          rw [skipBlanks_blank_of_head hhead] at hread
          obtain ⟨read, rest, hmany⟩ := ih (fun a ha => hnormal a (by simp [ha]))
            (fun a ha => henclosed a (by simp [ha])) hrest
          exact ⟨_, rest, by rw [many_of_some hread (by simp; omega), hmany]⟩
      | false =>
          -- no attribute begins at the parameters that were left
          obtain ⟨rest, hmark, htext⟩ := attributeMark_write_of_not (hnormal a (by simp)) ha
            (' ' :: (writeAttributes attributes ++ s))
          have hread := padded_attributeMark hmark
          rw [skipBlanks_of_head (by simp; decide)] at hread
          have hstop : many (padded attributeMark) ('(' :: ',' :: rest) =
              ([], '(' :: ',' :: rest) := by
            refine many_of_none ?_
            rw [padded, skipBlanks_of_head (by simp; decide), attributeMark_of_head (by simp),
              Option.map_none]
          refine ⟨[⟨a.name, []⟩], rest, ?_⟩
          rw [many_of_some hread ?_, hstop]
          simp only [htext, List.length_cons, List.length_append]
          omega

/-! ## The mark and the label -/

/-- A name is read as the `inout` mark just if it is that word and a blank follows. -/
theorem inoutMark_append {cs rest : List Char} (h : IsIdentifier cs)
    (hrest : ∀ c ∈ rest.head?, isIdentifierChar c = false)
    (hinout : cs = "inout".toList → ∀ c ∈ rest.head?, isBlank c = false) :
    inoutMark (cs ++ rest) = none := by
  rw [inoutMark, followedBy]
  split
  case h_1 _ rest' hliteral =>
      rw [Option.map_eq_none_iff]
      refine run_of_not fun c hc hblank => ?_
      -- with a blank behind it the word is the whole identifier
      have hword : identifier (cs ++ rest) = some ("inout".toList, rest') := by
        rw [literal_eq_some hliteral]
        refine identifier_append (isIdentifier_of_all rfl) fun d hd => ?_
        obtain rfl := Option.some.inj (hc.symm.trans hd)
        simp [isIdentifierChar, hblank]
      rw [identifier_append h hrest] at hword
      obtain ⟨hcs, hrest'⟩ := Prod.mk.inj (Option.some.inj hword)
      have := hinout hcs c (hrest' ▸ hc)
      simp [hblank] at this
  case h_2 => rfl

theorem inoutMark_of_head {s : List Char} (h : ∀ c ∈ s.head?, c ≠ 'i') : inoutMark s = none := by
  cases s with
  | nil => rfl
  | cons c s =>
      have : c ≠ 'i' := h c rfl
      simp [inoutMark, followedBy, literal, this]

theorem inoutMark_write {s : List Char} (hs : ∀ c ∈ s.head?, isBlank c = false) :
    inoutMark ("inout ".toList ++ s) = some ((), s) := by
  have hblank : run isBlank ([' '] ++ s) = some ([' '], s) :=
    run_append (by simp) (by simp; decide) fun c hc => by simp [hs c hc]
  rw [show "inout ".toList ++ s = "inout".toList ++ ([' '] ++ s) from rfl, inoutMark, followedBy,
    literal_append]
  simp only [hblank, Option.map_some]

theorem labelMark_of_head {s : List Char} (h : ∀ c ∈ s.head?, isIdentifierChar c = false) :
    labelMark s = none := by
  rw [labelMark, followedBy, identifier_of_head h, Option.map_none]

/-- A name is no label if no colon follows. -/
theorem labelMark_append {cs rest : List Char} (h : IsIdentifier cs)
    (hrest : ∀ c ∈ rest.head?, isIdentifierChar c = false)
    (hcolon : ∀ c ∈ (skipBlanks rest).head?, c ≠ ':') : labelMark (cs ++ rest) = none := by
  have hnone : padded (char ':') rest = none := by
    rw [padded, Option.map_eq_none_iff]
    cases hs : skipBlanks rest with
    | nil => rfl
    | cons c s => exact char_cons_of_ne (hcolon c (by rw [hs]; rfl)) s
  simp [labelMark, followedBy, identifier_append h hrest, hnone]

theorem labelMark_write {label : String} {s : List Char} (h : IsIdentifier label.toList)
    (hs : ∀ c ∈ s.head?, isBlank c = false) :
    labelMark (label.toList ++ ':' :: ' ' :: s) = some (label, s) := by
  have hcolon : padded (char ':') (':' :: ' ' :: s) = some ((), s) := by
    rw [padded, skipBlanks_of_head (by simp; decide), char_cons_self]
    simp only [Option.map_some, skipBlanks_blank_of_head hs]
  have hname : identifier (label.toList ++ ':' :: ' ' :: s) =
      some (label.toList, ':' :: ' ' :: s) :=
    identifier_append h (by simp; decide)
  simp [labelMark, followedBy, hname, hcolon]

end SwiftSurface.Grammar
