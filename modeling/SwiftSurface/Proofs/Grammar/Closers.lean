import SwiftSurface.Proofs.Grammar.Closure
import SwiftSurface.Proofs.Persistence

/-!
# Words and decorations in front of a closing mark

A comma, a colon or a closing mark behind a text continues no word of it and begins no part of it
(`Closes`). So names, attributes, the `inout` mark and labels are read in front of such a mark as
they are without it. There are two exceptions: parameters of an attribute whose closing mark does not
come (`Unclosed`), and a text that a colon would make a label of (`LabelCutOff`).
-/

namespace SwiftSurface.Grammar

open SwiftSurface.Parser Text

/-! ## Beginnings of texts -/

/-- The text begins, behind blanks, with one of these characters. -/
def BeginsWith (cs s : List Char) : Prop :=
  ∃ c ∈ (skipBlanks s).head?, c ∈ cs

/-- The marks that end an expression: a comma, a colon and the closing marks. -/
def closers : List Char :=
  [',', ')', '>', ']', ':']

/-- The text begins with a mark that ends the expression in front of it. -/
def Closes (more : List Char) : Prop :=
  ∃ c ∈ more.head?, c ∈ closers

/-- The beginnings of the parts that a rule reads at the end if it can. -/
def unfinished : List Char :=
  ['.', '<', '&', 't', '-']

variable {α : Type} {more s r cs cs' : List Char} {c : Char}

theorem BeginsWith.mono (h : BeginsWith cs s) (hsub : cs ⊆ cs') : BeginsWith cs' s := by
  obtain ⟨c, hc, hmem⟩ := h
  exact ⟨c, hc, hsub hmem⟩

theorem BeginsWith.not (h : BeginsWith cs s) (hdisjoint : ∀ c ∈ cs, c ∉ cs') :
    ¬ BeginsWith cs' s := by
  obtain ⟨c, hc, hmem⟩ := h
  rintro ⟨d, hd, hmem'⟩
  obtain rfl := Option.some.inj (hc.symm.trans hd)
  exact hdisjoint c hmem hmem'

theorem beginsWith_skipBlanks : BeginsWith cs (skipBlanks s) ↔ BeginsWith cs s := by
  rw [BeginsWith, BeginsWith, skipBlanks_skipBlanks]

theorem beginsWith_of_head (hc : c ∈ s.head?) (hmem : c ∈ cs) (hblank : isBlank c = false) :
    BeginsWith cs s := by
  refine ⟨c, ?_, hmem⟩
  rwa [skipBlanks_of_head fun d hd => Option.some.inj (hc.symm.trans hd) ▸ hblank]

theorem beginsWith_of_char {a : Unit} (hblank : isBlank c = false)
    (h : char c s = some (a, r)) : BeginsWith [c] s := by
  rw [char_eq_some h]
  exact beginsWith_of_head rfl (by simp) hblank

theorem beginsWith_of_padded_char {a : Unit} (h : padded (char c) s = some (a, r)) :
    BeginsWith [c] s := by
  obtain ⟨⟨_, rest⟩, hchar, -⟩ := Option.map_eq_some_iff.1 h
  exact ⟨c, by rw [char_eq_some hchar]; rfl, by simp⟩

theorem BeginsWith.ne_nil (h : BeginsWith cs s) : s ≠ [] := by
  rintro rfl
  obtain ⟨c, hc, -⟩ := h
  simp [skipBlanks] at hc

theorem BeginsWith.ne_of_not (h : ¬ BeginsWith cs s) (hc : c ∈ cs) :
    ∀ d ∈ (skipBlanks s).head?, d ≠ c :=
  fun d hd hdc => h ⟨d, hd, hdc ▸ hc⟩

theorem char_of_not_beginsWith (hblank : isBlank c = false) (h : ¬ BeginsWith [c] s) :
    char c s = none :=
  Option.eq_none_iff_forall_ne_some.2 fun _ hs => h (beginsWith_of_char hblank hs)

theorem padded_char_of_not_beginsWith (h : ¬ BeginsWith [c] s) : padded (char c) s = none :=
  Option.eq_none_iff_forall_ne_some.2 fun _ hs => h (beginsWith_of_padded_char hs)

theorem BeginsWith.char_eq_none (h : BeginsWith cs s) (hc : c ∉ cs) (hblank : isBlank c = false) :
    char c s = none :=
  char_of_not_beginsWith hblank (h.not fun _ hd hmem => hc (List.mem_singleton.1 hmem ▸ hd))

theorem BeginsWith.padded_char_eq_none (h : BeginsWith cs s) (hc : c ∉ cs) :
    padded (char c) s = none :=
  padded_char_of_not_beginsWith (h.not fun _ hd hmem => hc (List.mem_singleton.1 hmem ▸ hd))

theorem of_mem_closers (h : c ∈ closers) : isBlank c = false ∧ isIdentifierChar c = false := by
  have hall : closers.all (fun c => !isBlank c && !isIdentifierChar c) = true := by decide
  simpa using List.all_eq_true.1 hall c h

theorem padded_throws_of_not_beginsWith (h : ¬ BeginsWith ['t'] s) :
    padded (literal "throws".toList) s = none :=
  padded_literal_of_head (c := 't') (BeginsWith.ne_of_not h (by simp))

theorem padded_arrow_of_not_beginsWith (h : ¬ BeginsWith ['-'] s) :
    padded (literal "->".toList) s = none :=
  padded_literal_of_head (c := '-') (BeginsWith.ne_of_not h (by simp))

theorem between_of_not_beginsWith {p : Parser α} {closing : Char} (hblank : isBlank c = false)
    (h : ¬ BeginsWith [c] s) : between c closing p s = none := by
  simp [between, followedBy, after, char_of_not_beginsWith hblank h]

namespace Closes

variable (hmore : Closes more)
include hmore

theorem mem_closers : ∀ c ∈ more.head?, c ∈ closers := by
  obtain ⟨c, hc, hmem⟩ := hmore
  intro d hd
  obtain rfl := Option.some.inj (hc.symm.trans hd)
  exact hmem

theorem isBlank : ∀ c ∈ more.head?, isBlank c = false :=
  fun c hc => (of_mem_closers (hmore.mem_closers c hc)).1

theorem isIdentifierChar : ∀ c ∈ more.head?, isIdentifierChar c = false :=
  fun c hc => (of_mem_closers (hmore.mem_closers c hc)).2

/-- Blanks are skipped up to the mark. -/
theorem skipBlanks_append (s : List Char) : skipBlanks (s ++ more) = skipBlanks s ++ more := by
  have hskip := skipBlanks_of_head hmore.isBlank
  rw [skipBlanks] at hskip ⊢
  rw [List.dropWhile_append, hskip, skipBlanks]
  cases s.dropWhile Text.isBlank <;> rfl

/-- No other character comes in with the mark. -/
theorem head_append (s : List Char) :
    ∀ c ∈ (s ++ more).head?, c ∈ s.head? ∨ s = [] ∧ c ∈ closers := by
  cases s with
  | nil => exact fun c hc => .inr ⟨rfl, hmore.mem_closers c hc⟩
  | cons d s => exact fun c hc => .inl hc

/-- What begins with another character in front of the mark begins with it anyway. -/
theorem beginsWith (hcs : ∀ c ∈ cs, c ∉ closers) (h : BeginsWith cs (s ++ more)) :
    BeginsWith cs s := by
  obtain ⟨c, hc, hmem⟩ := h
  rw [hmore.skipBlanks_append] at hc
  rcases hmore.head_append _ c hc with hc | ⟨-, hclose⟩
  · exact ⟨c, hc, hmem⟩
  · exact absurd hclose (hcs c hmem)

theorem beginsWith_append (h : BeginsWith cs s) : BeginsWith cs (s ++ more) := by
  obtain ⟨c, hc, hmem⟩ := h
  refine ⟨c, ?_, hmem⟩
  rw [hmore.skipBlanks_append]
  cases hs : skipBlanks s with
  | nil => simp [hs] at hc
  | cons d s' => rwa [hs] at hc

end Closes

/-! ## Marks and words -/

section Words

variable {p q : Parser α} {stuck stuck' : List Char → Prop} (hmore : Closes more)
include hmore

theorem padded_persists (h : Persists more stuck p q)
    (hskip : ∀ r, stuck r → stuck' (skipBlanks r)) :
    Persists more stuck' (padded p) (padded q) := by
  intro s a r hr
  obtain ⟨⟨a, r⟩, hp, hr⟩ := Option.map_eq_some_iff.1 hr
  obtain ⟨rfl, rfl⟩ := Prod.mk.inj hr
  obtain ⟨hsuffix, hread⟩ := h _ a r hp
  refine ⟨(List.dropWhile_suffix _).trans (hsuffix.trans (List.dropWhile_suffix _)), ?_⟩
  refine hread.imp (fun hq => ?_) (hskip r)
  rw [padded, hmore.skipBlanks_append, hq, Option.map_some]
  simp only [hmore.skipBlanks_append]

theorem padded_char_persists (c : Char) :
    Persists more never (padded (char c)) (padded (char c)) :=
  padded_persists hmore (.char more c) fun _ => id

theorem padded_literal_persists (cs : List Char) :
    Persists more never (padded (literal cs)) (padded (literal cs)) :=
  padded_persists hmore (.literal more cs) fun _ => id

theorem identifier_persists : Persists more never identifier identifier :=
  (Persists.run more _).imp fun _ ⟨_, c, hc, hident⟩ => by
    simp [hmore.isIdentifierChar c hc] at hident

theorem identifier_append_of_none (h : identifier s = none) : identifier (s ++ more) = none :=
  run_append_of_none (fun c hc => by simp [hmore.isIdentifierChar c hc]) h

/-- No part of an expression that begins with `c` comes in with the mark. -/
theorem after_char_append_of_none (hc : c ∉ closers)
    (hnone : ∀ r, p r = none → q (r ++ more) = none) (h : after (char c) p s = none) :
    after (char c) q (s ++ more) = none := by
  cases hread : char c (s ++ more) with
  | none => simp [after, hread]
  | some found =>
      obtain ⟨_, r⟩ := found
      have hs := char_eq_some hread
      rcases hmore.head_append s c (by simp [hs]) with hhead | ⟨-, hclose⟩
      · cases s with
        | nil => simp at hhead
        | cons d s =>
            obtain rfl := Option.some.inj hhead
            have hp : p s = none := by simpa [after] using h
            simpa [after] using hnone s hp
      · exact absurd hclose hc

theorem literal_append_of_none (hcs : ∀ c ∈ cs, c ∉ closers) (h : literal cs s = none) :
    literal cs (s ++ more) = none := by
  induction cs generalizing s with
  | nil => simp [literal] at h
  | cons c cs ih =>
      rw [literal_cons] at h ⊢
      exact after_char_append_of_none hmore (hcs c (by simp))
        (fun r => ih fun d hd => hcs d (by simp [hd])) h

/-- A name may stop in front of a dot that no further name follows. -/
theorem dottedName_persists :
    Persists more (fun r => BeginsWith ['.'] r ∧ after (char '.') identifier r = none)
      dottedName dottedName := by
  have hname := identifier_persists hmore
  have hmany : PersistsAll more
      (fun r => BeginsWith ['.'] r ∧ after (char '.') identifier r = none)
      (many (after (char '.') identifier)) (many (after (char '.') identifier)) := by
    refine ((Persists.char more '.').after hname).many (fun _ => False.elim) fun r hr => ?_
    by_cases hdot : BeginsWith ['.'] r
    · exact .inr ⟨hdot, hr⟩
    · refine .inl ?_
      rw [after, char_of_not_beginsWith (by decide)
        fun h => hdot (hmore.beginsWith (by simp [closers]) h)]
  exact hname.andThen (fun first more => first ++ more.flatMap ('.' :: ·)) hmany
    fun _ => False.elim

end Words

/-! ## Attributes -/

section Attributes

variable {opening closing : Char}

theorem attributeParameter_eq_none_iff :
    attributeParameter closing s = none ↔ ∀ c ∈ s.head?, c = ',' ∨ c = closing := by
  cases s with
  | nil => simp [attributeParameter, Parser.run]
  | cons c s =>
      by_cases hcomma : c = ',' <;> by_cases hclosing : c = closing <;>
        simp_all [attributeParameter, Parser.run]

theorem attributeParameter_append_of_none (h : attributeParameter closing s = none) (hne : s ≠ [])
    (more : List Char) : attributeParameter closing (s ++ more) = none := by
  rw [attributeParameter_eq_none_iff] at h ⊢
  cases s with
  | nil => exact absurd rfl hne
  | cons c s => exact h

/-- The parameters in front of their closing mark are told by what stands in front of the mark. -/
theorem separatedBy_attributeParameter_persists (hcomma : closing ≠ ',') (more : List Char) :
    PersistsAll (closing :: more) never (separatedBy ',' (attributeParameter closing))
      (separatedBy ',' (attributeParameter closing)) := by
  have hitem : Persists (closing :: more) never (attributeParameter closing)
      (attributeParameter closing) :=
    ((Persists.run (closing :: more) _).imp fun _ ⟨_, c, hc, hin⟩ => by
      obtain rfl := Option.some.inj hc
      simp at hin).map fun cs => String.ofList (trim cs)
  have hnone (r : List Char) (hr : attributeParameter closing r = none) :
      attributeParameter closing (r ++ closing :: more) = none := by
    cases r with
    | nil => exact attributeParameter_eq_none_iff.2 (by simp)
    | cons d r => exact attributeParameter_append_of_none hr (by simp) _
  refine hitem.separatedBy (fun _ => False.elim) (fun r hr => .inl (hnone r hr)) fun r hr => ?_
  cases r with
  | nil => simp [after, char_cons_of_ne hcomma]
  | cons d r =>
      by_cases hd : d = ','
      · subst hd
        exact .inl (by simpa [after] using hnone r (by simpa [after] using hr))
      · simp [after, char_cons_of_ne hd]

theorem attributeParameters_cons (s : List Char) :
    attributeParameters opening closing (opening :: s) =
      (char closing (separatedBy ',' (attributeParameter closing) s).2).map fun (_, rest) =>
        ((separatedBy ',' (attributeParameter closing) s).1, rest) := by
  simp [attributeParameters, between, followedBy, after]

/-- Up to the first closing mark the parameters are read to their end, or they are refused, whatever
stands behind the mark. -/
theorem attributeParameters_closed (hcomma : closing ≠ ',') {before : List Char}
    (hbefore : closing ∉ before) (rest : List Char) :
    attributeParameters opening closing (opening :: (before ++ closing :: rest)) =
      if (separatedBy ',' (attributeParameter closing) before).2 = [] then
        some ((separatedBy ',' (attributeParameter closing) before).1, rest)
      else none := by
  obtain ⟨hsuffix, hread⟩ := separatedBy_attributeParameter_persists hcomma rest before
  rw [attributeParameters_cons, hread.resolve_right id]
  cases hleft : (separatedBy ',' (attributeParameter closing) before).2 with
  | nil => simp
  | cons d left =>
      have hd : d ≠ closing := by
        rintro rfl
        exact hbefore (hsuffix.subset (by simp [hleft]))
      simp [char_cons_of_ne hd]

/-- Parameters that are refused although their closing mark comes are refused in a longer text. -/
theorem attributeParameters_append_of_closed (hcomma : closing ≠ ',') (hclosed : closing ∈ s)
    (h : attributeParameters opening closing (opening :: s) = none) (more : List Char) :
    attributeParameters opening closing (opening :: s ++ more) = none := by
  obtain ⟨before, rest, rfl, hbefore⟩ := List.eq_append_cons_of_mem hclosed
  rw [attributeParameters_closed hcomma hbefore] at h
  rw [List.cons_append, List.append_assoc, List.cons_append,
    attributeParameters_closed hcomma hbefore]
  simpa using h

/-- The parameters of an attribute are read whatever stands behind their closing mark. -/
theorem attributeParameters_persists (hcomma : closing ≠ ',') (more : List Char) :
    Persists more never (attributeParameters opening closing)
      (attributeParameters opening closing) := by
  have hitem : Persists more (fun r => r = []) (attributeParameter closing)
      (attributeParameter closing) :=
    ((Persists.run more _).imp fun _ h => h.1).map fun cs => String.ofList (trim cs)
  refine Persists.between (hitem.separatedBy_closed hcomma ?_ fun r => ?_).parser
  · rintro r rfl
    exact ⟨rfl, rfl⟩
  · exact attributeParameter_eq_none_iff.2 (by simp)

theorem attributeParameters_append_of_none (hcomma : closing ≠ ',') (hopening : opening ∉ closers)
    (hmore : Closes more) (h : attributeParameters opening closing s = none) :
    attributeParameters opening closing (s ++ more) = none ∨
      ∃ u, s = opening :: u ∧ closing ∉ u := by
  by_cases hhead : s.head? = some opening
  · obtain ⟨u, rfl⟩ : ∃ u, s = opening :: u := by
      cases s <;> simp_all
    by_cases hclosed : closing ∈ u
    · exact .inl (attributeParameters_append_of_closed hcomma hclosed h more)
    · exact .inr ⟨u, rfl, hclosed⟩
  · refine .inl (attributeParameters_of_head fun c hc => ?_)
    rintro rfl
    rcases hmore.head_append s c hc with hc | ⟨-, hclose⟩
    · exact hhead hc
    · exact hopening hclose

/-- The text begins with an opening mark whose closing mark does not come. -/
def Unclosed (s : List Char) : Prop :=
  (∃ u, s = '(' :: u ∧ ')' ∉ u) ∨ ∃ u, s = '[' :: u ∧ ']' ∉ u

theorem Unclosed.head (h : Unclosed s) : ∀ c ∈ s.head?, c = '(' ∨ c = '[' := by
  rcases h with ⟨u, rfl, -⟩ | ⟨u, rfl, -⟩ <;> simp

/-- An attribute is read up to parameters that are cut off. -/
theorem attributeMark_persists (hmore : Closes more) :
    Persists more Unclosed attributeMark attributeMark := by
  have hparameters : Persists more Unclosed
      (orElse (attributeParameters '(' ')') (attributeParameters '[' ']'))
      (orElse (attributeParameters '(' ')') (attributeParameters '[' ']')) := by
    refine ((attributeParameters_persists (by decide) more).orElse
      (attributeParameters_persists (by decide) more) fun s found hfound => ?_).of_never _
    -- what begins with a bracket does not begin with a parenthesis
    cases s with
    | nil => simp [attributeParameters, between, followedBy, after, char] at hfound
    | cons c s =>
        by_cases hc : c = '('
        · subst hc
          simp [attributeParameters, between, followedBy, after, char_cons_of_ne] at hfound
        · exact attributeParameters_of_head (by simpa using hc)
  have hoptional := hparameters.optionally fun r hr => by
    obtain ⟨hround, hsquare⟩ := orElse_eq_none.1 hr
    rcases attributeParameters_append_of_none (by decide) (by decide) hmore hround with
      hround | hopen
    · rcases attributeParameters_append_of_none (by decide) (by decide) hmore hsquare with
        hsquare | hopen
      · exact .inl (orElse_eq_none.2 ⟨hround, hsquare⟩)
      · exact .inr (.inr hopen)
    · exact .inr (.inl hopen)
  exact ((Persists.char more '@').after (identifier_persists hmore)).andThen
    (fun (name : List Char) (parameters : Option (List String)) =>
      ({ name := String.ofList name, parameters := parameters.getD [] } : Attribute))
    hoptional fun _ => False.elim

end Attributes

/-! ## Decorations -/

section Decorations

variable (hmore : Closes more)
include hmore

theorem attributes_persist :
    PersistsAll more Unclosed (many (padded attributeMark)) (many (padded attributeMark)) := by
  have hitem : Persists more Unclosed (padded attributeMark) (padded attributeMark) := by
    refine padded_persists hmore (attributeMark_persists hmore) fun r hr => ?_
    rwa [skipBlanks_of_head]
    exact fun c hc => by rcases hr.head c hc with rfl | rfl <;> decide
  refine hitem.many (fun r hr => ⟨?_, hr⟩) fun r hr => .inl ?_
  · have hblank : ∀ c ∈ r.head?, Text.isBlank c = false :=
      fun c hc => by rcases hr.head c hc with rfl | rfl <;> decide
    have hmark : attributeMark r = none :=
      attributeMark_of_head fun c hc => by rcases hr.head c hc with rfl | rfl <;> decide
    rw [padded, skipBlanks_of_head hblank, hmark, Option.map_none]
  · rw [padded, Option.map_eq_none_iff] at hr ⊢
    rw [hmore.skipBlanks_append]
    rw [attributeMark, Option.map_eq_none_iff] at hr ⊢
    exact after_char_append_of_none hmore (by decide) (fun r => identifier_append_of_none hmore) hr

/-- The `inout` mark needs a blank behind it, which does not come in with `more`. -/
theorem inoutMark_persists :
    PersistsAll more never (optionally inoutMark) (optionally inoutMark) := by
  have hblank : ∀ c ∈ more.head?, ¬ Text.isBlank c := fun c hc => by simp [hmore.isBlank c hc]
  have hmark : Persists more never inoutMark inoutMark :=
    (Persists.literal more _).followedBy
      ((Persists.run more _).imp fun _ ⟨_, c, hc, hin⟩ => hblank c hc hin) fun _ => False.elim
  refine hmark.optionally fun r hr => .inl ?_
  rw [inoutMark] at hr ⊢
  cases hword : literal "inout".toList r with
  | none => rw [followedBy, literal_append_of_none hmore (by simp [closers]) hword]
  | some found =>
      obtain ⟨_, rest⟩ := found
      have hread := (Persists.literal more _ _ _ _ hword).2.resolve_right id
      rw [followedBy_of_some hword, Option.map_eq_none_iff] at hr
      rw [followedBy_of_some hread, run_append_of_none hblank hr, Option.map_none]

/-- The text is one that a colon would make a label of: names and blanks only. -/
def LabelCutOff (mayHaveLabel : Bool) (more r : List Char) : Prop :=
  mayHaveLabel = true ∧ ':' ∈ more.head? ∧ ∀ c ∈ r, Grammar.isIdentifierChar c ∨ Text.isBlank c

theorem labelMark_persists (mayHaveLabel : Bool) :
    PersistsAll more (LabelCutOff mayHaveLabel more)
      (fun s => if mayHaveLabel then optionally labelMark s else (none, s))
      (fun s => if mayHaveLabel then optionally labelMark s else (none, s)) := by
  cases mayHaveLabel with
  | false => exact fun s => ⟨List.suffix_rfl, .inl rfl⟩
  | true =>
      have hmark : Persists more never (followedBy identifier (padded (char ':')))
          (followedBy identifier (padded (char ':'))) :=
        (identifier_persists hmore).followedBy (padded_char_persists hmore ':') fun _ => False.elim
      refine ((hmark.map String.ofList).of_never _).optionally fun r hr => ?_
      simp only [Option.map_eq_none_iff] at hr ⊢
      cases hname : identifier r with
      | none => exact .inl (by rw [followedBy, identifier_append_of_none hmore hname])
      | some found =>
          obtain ⟨name, rest⟩ := found
          have hread := (identifier_persists hmore _ _ _ hname).2.resolve_right id
          rw [followedBy_of_some hname, Option.map_eq_none_iff] at hr
          rw [followedBy_of_some hread, Option.map_eq_none_iff]
          by_cases hcolon : BeginsWith [':'] (rest ++ more)
          · obtain ⟨_, hhead, hmem⟩ := hcolon
            obtain rfl := List.mem_singleton.1 hmem
            rw [hmore.skipBlanks_append] at hhead
            obtain ⟨rfl, -, hident, -⟩ := run_eq_some hname
            cases hskip : skipBlanks rest with
            | nil =>
                -- only blanks stand between the name and the colon
                rw [hskip] at hhead
                refine .inr ⟨rfl, hhead, fun c hc => ?_⟩
                exact (List.mem_append.1 hc).imp (hident c) (skipBlanks_eq_nil_iff.1 hskip c)
            | cons d rest' =>
                rw [hskip] at hhead
                obtain rfl := Option.some.inj hhead
                rw [padded, hskip, char_cons_self] at hr
                exact absurd hr (by simp)
          · exact .inl (padded_char_of_not_beginsWith hcolon)

end Decorations

end SwiftSurface.Grammar
