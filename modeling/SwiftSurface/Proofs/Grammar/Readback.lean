import SwiftSurface.Proofs.Grammar.Decorated

/-!
# Reading a written expression

`readable` puts the pieces together: by induction on the nodes, every regular expression whose
attribute parameters do not hold the closing mark is read back in front of what ends it, or is
misread, as `respells` tells.
-/

namespace SwiftSurface

open Grammar SwiftSurface.Parser Text

namespace Grammar

/-! ## Closures -/

section Closure

variable {arguments returns : TypeExpr} {throws : Bool} {attributes : List Attribute}
  {isInout : Bool} {label : Option String}

/-- The written closure less its decorations: in front of it stand the decorations of a tuple that
is the argument. -/
theorem writeCore_closure (hlabel : arguments.label = none) (rest : List Char) :
    TypeExpr.writeCore ⟨.closure arguments returns throws, [], attributes, isInout, label⟩ ++ rest =
      TypeExpr.writeDecorations (Shape.closure arguments returns throws).argumentAttributes
        (arguments.kind = .tuple && arguments.isInout) none ++
      (argumentText arguments ++ (arrowText throws ++ (returns.write .full ++ rest))) := by
  have hargument : (if arguments.needsParentheses then '(' :: arguments.write .full ++ [')']
      else arguments.write .full) =
      TypeExpr.writeDecorations (Shape.closure arguments returns throws).argumentAttributes
        (arguments.kind = .tuple && arguments.isInout) none ++ argumentText arguments := by
    rw [argumentText]
    obtain ⟨shape, generics, attributes, isInout, label⟩ := arguments
    obtain rfl : label = none := hlabel
    cases shape <;> cases isInout <;> cases attributes <;>
      simp [TypeExpr.needsParentheses, TypeExpr.kind, Shape.kind, Shape.argumentAttributes,
        TypeExpr.writeDecorations, TypeExpr.write_eq]
  have htext : TypeExpr.writeCore
      ⟨.closure arguments returns throws, [], attributes, isInout, label⟩ =
      (if arguments.needsParentheses then '(' :: arguments.write .full ++ [')']
          else arguments.write .full) ++ (arrowText throws ++ returns.write .full) := by
    simp [TypeExpr.writeCore, Shape.write, Shape.writeInner, arrowText]
  rw [htext, hargument]
  simp

theorem head_arrowText : ∀ (throws : Bool) (s : List Char),
    ∀ c ∈ (skipBlanks (arrowText throws ++ s)).head?, c ≠ '&' ∧ c ≠ ':' := by
  intro throws s c hc
  obtain ⟨d, s', htext, hd⟩ := skipBlanks_arrowText throws s
  rw [htext] at hc
  obtain rfl := Option.some.inj hc
  rcases hd with rfl | rfl <;> decide

/-- In front of an arrow an argument starts like a type. Its first word is read as the mark just if
it is the name that leads the argument. -/
theorem undecorated_argument (throws : Bool) (hnode : arguments.RegularNode) (s : List Char) :
    let text := argumentText arguments ++ (arrowText throws ++ s)
    Undecorated text ∧ (arguments.leadingName? ≠ some "inout" → inoutMark text = none) := by
  intro text
  have hbreaks := breaks_arrowText throws s
  have hcolon : ∀ c ∈ (skipBlanks (arrowText throws ++ s)).head?, c ≠ ':' :=
    fun c hc => (head_arrowText throws s c hc).2
  have hparen (s : List Char) : Undecorated ('(' :: s) ∧
      (arguments.leadingName? ≠ some "inout" → inoutMark ('(' :: s) = none) :=
    ⟨undecorated_of_paren s, fun _ => inoutMark_of_head (by simp)⟩
  cases h : arguments.needsParentheses with
  | true =>
      obtain ⟨s', htext⟩ : ∃ s', text = '(' :: s' := by simp [text, argumentText, h]
      rw [htext]
      exact hparen s'
  | false =>
      have htext : text = arguments.writeCore ++ (arrowText throws ++ s) := by
        simp [text, argumentText, h]
      rw [htext]
      have hshape := hnode.shape
      obtain ⟨shape, generics, attributes, isInout, label⟩ := arguments
      cases shape with
      | named type =>
          obtain ⟨name, inner⟩ := type
          obtain ⟨hs, hinout⟩ := undecorated_named attributes isInout label hshape hbreaks hcolon
          refine ⟨hs, fun hname => hinout fun hfirst hnone => ?_⟩
          simp_all [TypeExpr.needsParentheses, TypeExpr.kind, Shape.kind, TypeExpr.leadingName?]
      | tuple elements =>
          obtain rfl : generics = [] := hshape.1
          rw [TypeExpr.writeCore_tuple]
          exact hparen _
      | closure => simp [TypeExpr.needsParentheses, TypeExpr.kind, Shape.kind] at h
      | composition constituents =>
          obtain rfl : generics = [] := hshape.1
          cases constituents with
          | nil => exact absurd rfl hshape.2.1
          | cons first more =>
              obtain ⟨-, hs, hinout⟩ := undecorated_composition attributes isInout label hshape
                hbreaks hcolon
              refine ⟨hs, fun hname => hinout fun hfirst => ?_⟩
              simp_all [TypeExpr.needsParentheses, TypeExpr.kind, Shape.kind, TypeExpr.leadingName?]

/-- An argument that the word `inout` leads is that word with the other constituents behind it. -/
theorem argumentText_of_leading (hnode : arguments.RegularNode)
    (h : arguments.leadingName? = some "inout") :
    ∃ more, argumentText arguments = "inout".toList ++ writeMoreConstituents more := by
  have hshape := hnode.shape
  unfold TypeExpr.leadingName? at h
  split at h
  case h_1 type =>
      obtain ⟨name, inner⟩ := type
      obtain rfl : name = "inout" := Option.some.inj h
      obtain rfl : inner = none := hshape.inner_eq_none
      exact ⟨[], by simp [argumentText, TypeExpr.needsParentheses, TypeExpr.kind, Shape.kind,
        TypeExpr.writeCore_named, writeMoreConstituents]⟩
  case h_2 first more =>
      have hfirst : first.name = "inout" := Option.some.inj h
      refine ⟨more, ?_⟩
      simp [argumentText, TypeExpr.needsParentheses, TypeExpr.kind, Shape.kind, hfirst,
        TypeExpr.writeCore_composition fun c hc => (hshape.2.2 c hc).2]
  case h_3 => exact absurd h (by simp)

/-- What follows a first word `inout` of a closure is refused, or is a closure whose argument is
named `throws`. -/
theorem core_of_leading (throws : Bool)
    (hreturns : ReadsBack false returns ∧ Opens (returns.write .full)) {rest : List Char}
    (hrest : Ends rest) (more : List NamedType) :
    ∃ s, "inout".toList ++ writeMoreConstituents more ++
        (arrowText throws ++ (returns.write .full ++ rest)) = "inout ".toList ++ s ∧
      Undecorated s ∧ (core s = none ∨ ∃ u r, core s = some (u, r) ∧
        (Stuck (skipBlanks r) ∨ r = rest ∧ u.outline = (none, false))) := by
  have hrefused (c : Char) (s : List Char) (hc : isBlank c = false ∧ isIdentifierChar c = false ∧
      c ≠ '(' ∧ c ≠ '[' ∧ c ≠ '@') : Undecorated (c :: s) ∧ core (c :: s) = none :=
    ⟨undecorated_of_head (by simp [hc]), core_of_head (by simp [hc])⟩
  cases more with
  | cons type more =>
      refine ⟨'&' :: ' ' :: (type.name.toList ++ (writeMoreConstituents more ++
        (arrowText throws ++ (returns.write .full ++ rest)))), ?_, ?_⟩
      · simp [writeMoreConstituents]
      · obtain ⟨hs, hcore⟩ := hrefused '&' _ (by decide)
        exact ⟨hs, .inl hcore⟩
  | nil =>
      cases throws with
      | false =>
          refine ⟨'-' :: '>' :: ' ' :: (returns.write .full ++ rest), ?_, ?_⟩
          · simp [writeMoreConstituents, arrowText]
          · obtain ⟨hs, hcore⟩ := hrefused '-' _ (by decide)
            exact ⟨hs, .inl hcore⟩
      | true =>
          -- `throws` is now the name of the argument
          have hthrows : IsPath "throws".toList :=
            IsIdentifier.isPath (isIdentifier_of_all rfl)
          have hbreaks := breaks_arrowText false (returns.write .full ++ rest)
          have hnext := head_arrowText false (returns.write .full ++ rest)
          refine ⟨"throws".toList ++ (arrowText false ++ (returns.write .full ++ rest)), ?_,
            undecorated_path hthrows hbreaks.not_ident fun c hc => (hnext c hc).2, ?_⟩
          · simp [writeMoreConstituents, arrowText]
          · have hargument := composition_of_atom (atom_path hthrows hbreaks)
              fun c hc => (hnext c hc).1
            have hcore := core_of_arrow hargument (hreturns.2.append rest).head
            refine .inr ?_
            rcases hreturns.1 rest hrest with
              ⟨-, hread⟩ | ⟨-, hread | ⟨u, r, hread, hr⟩⟩
            · rw [hread] at hcore
              exact ⟨_, rest, hcore, .inr ⟨rfl, rfl⟩⟩
            · rw [hread] at hcore
              exact ⟨_, _, hcore, .inl (stuck_arrowText false _)⟩
            · rw [hread] at hcore
              exact ⟨_, r, hcore, hr.imp_right fun h => ⟨h.1, rfl⟩⟩

/-- A closure comes back if its argument does and its result does. -/
theorem coreRespells_closure (returns : TypeExpr) (throws : Bool) (attributes : List Attribute)
    (isInout : Bool) (label : Option String) (hnode : arguments.RegularNode)
    (hinout : arguments.kind = .tuple → arguments.isInout = false) :
    TypeExpr.coreRespells ⟨.closure arguments returns throws, [], attributes, isInout, label⟩ =
      (argumentRespells arguments && returns.respells) := by
  by_cases hkind : arguments.kind = .tuple
  · have hshape := hnode.shape
    obtain ⟨shape, generics, attributes', isInout', label'⟩ := arguments
    cases shape <;> simp [TypeExpr.kind, Shape.kind] at hkind
    case tuple elements =>
        obtain rfl : isInout' = false := hinout rfl
        obtain rfl : generics = [] := hshape.1
        simp [TypeExpr.coreRespells, TypeExpr.respellAll, Shape.respells, argumentRespells,
          TypeExpr.needsParentheses, TypeExpr.kind, Shape.kind]
  · rw [TypeExpr.coreRespells, Shape.respells_closure hkind]
    rfl

theorem argumentReread_eq (hkind : arguments.kind ≠ .tuple) (hlabel : arguments.label = none) :
    argumentReread arguments = arguments.reread := by
  rw [argumentReread]
  split
  · rfl
  case isFalse h =>
      simp only [TypeExpr.needsParentheses, Bool.and_eq_true, Bool.or_eq_true, not_and, not_or,
        bne_iff_ne, beq_iff_eq, Bool.not_eq_true', Bool.not_eq_false, List.isEmpty_iff] at h
      obtain ⟨⟨⟨hkind', hinout⟩, -⟩, hattributes⟩ := h hkind
      refine bare_reread hkind' ?_
      obtain ⟨shape, generics, attributes, isInout, label⟩ := arguments
      simp_all [TypeExpr.bare]

/-- The attributes of a tuple that is the argument come back as those of the closure. -/
theorem reread_closure (returns : TypeExpr) (throws : Bool) (attributes : List Attribute)
    (isInout : Bool) (label : Option String) (hnode : arguments.RegularNode)
    (hlabel : arguments.label = none)
    (hinout : arguments.kind = .tuple → arguments.isInout = false) :
    TypeExpr.reread ⟨.closure arguments returns throws, [], attributes, isInout, label⟩ =
      decorate ((attributes ++ (Shape.closure arguments returns throws).argumentAttributes).map
        (·.respelled)) isInout label
        (.closure (argumentReread arguments) returns.reread throws) := by
  have hargument : (Shape.closure arguments returns throws).reread =
      .closure (argumentReread arguments) returns.reread throws := by
    by_cases hkind : arguments.kind = .tuple
    · have hshape := hnode.shape
      obtain ⟨shape, generics, attributes', isInout', label'⟩ := arguments
      cases shape <;> simp [TypeExpr.kind, Shape.kind] at hkind
      case tuple elements =>
          obtain rfl : isInout' = false := hinout rfl
          obtain rfl : label' = none := hlabel
          obtain rfl : generics = [] := hshape.1
          rfl
    · rw [Shape.reread_closure hkind, argumentReread_eq hkind hlabel]
  rw [TypeExpr.reread_mk, hargument]
  simp [decorate, TypeExpr.closure, TypeExpr.ofShape]

theorem argumentAttributes_of_kind_ne (hkind : arguments.kind ≠ .tuple) :
    (Shape.closure arguments returns throws).argumentAttributes = [] := by
  obtain ⟨shape, generics, attributes, isInout, label⟩ := arguments
  cases shape <;> first | rfl | exact absurd rfl hkind

/-- The decorations of the argument can be told from those of the closure: it is no tuple, or it is
a tuple without any. -/
theorem outcome_of_plain {mayHaveLabel : Bool} {rest : List Char}
    (hnode : TypeExpr.RegularNode
      ⟨.closure arguments returns throws, [], attributes, isInout, label⟩)
    (henclosed : ∀ a ∈ attributes, a.Enclosed) (hlabel : label.isSome → mayHaveLabel = true)
    (hargument : arguments.RegularNode)
    (hreturns : ReadsBack false returns ∧ Opens (returns.write .full))
    (hnone : (Shape.closure arguments returns throws).argumentAttributes = [])
    (hinout : arguments.kind = .tuple → arguments.isInout = false) (hrest : Ends rest)
    (hcore : CoreOutcome ⟨.closure arguments returns throws, [], attributes, isInout, label⟩
      (argumentRespells arguments && returns.respells)
      (.closure (argumentReread arguments) returns.reread throws) rest
      (core (argumentText arguments ++ (arrowText throws ++ (returns.write .full ++ rest))))) :
    let t : TypeExpr := ⟨.closure arguments returns throws, [], attributes, isInout, label⟩
    Outcome t.respells t.reread t.Other (fun r => Stuck (skipBlanks r)) rest
      (withDecorations mayHaveLabel core (t.write .full ++ rest)) := by
  intro t
  have hnolabel := hnode.shape.2.1
  have htext : TypeExpr.writeDecorations
      (Shape.closure arguments returns throws).argumentAttributes
      (arguments.kind = .tuple && arguments.isInout) none = [] := by
    by_cases hkind : arguments.kind = .tuple <;> simp [TypeExpr.writeDecorations, *]
  have hback := coreRespells_closure returns throws attributes isInout label hargument hinout
  have hexpected := reread_closure returns throws attributes isInout label hargument hnolabel
    hinout
  rw [hnone, List.append_nil] at hexpected
  obtain ⟨hs, hmark⟩ := undecorated_argument throws hargument (returns.write .full ++ rest)
  rw [TypeExpr.write_eq, List.append_assoc, writeCore_closure hnolabel, htext, List.nil_append]
  refine outcome_of_core hnode henclosed hlabel hs hcore hnone hback hexpected.symm hmark
    fun hname hisInout hnoLabel hattributes => ?_
  -- the argument starts with the word `inout`, which is read as the closure's mark
  obtain ⟨more, hword⟩ := argumentText_of_leading hargument hname
  obtain ⟨s, hleading, hundecorated, hother⟩ := core_of_leading throws hreturns hrest more
  rw [hword, hleading, writeDecorations_leading hisInout hnoLabel]
  obtain rfl : label = none := hnoLabel
  exact outcome_of_mark hnode.attributes henclosed hattributes hisInout rfl hundecorated hother

/-! ### Tuples with modifiers as arguments -/

theorem argumentText_of_tuple (hkind : arguments.kind = .tuple) :
    ∃ s, argumentText arguments = '(' :: s := by
  obtain ⟨shape, generics, attributes, isInout, label⟩ := arguments
  cases shape <;> simp [TypeExpr.kind, Shape.kind] at hkind
  case tuple elements =>
      simp [argumentText, TypeExpr.needsParentheses, TypeExpr.kind, Shape.kind, TypeExpr.writeCore,
        Shape.write]

theorem argumentAttributes_of_tuple (returns : TypeExpr) (throws : Bool)
    (hkind : arguments.kind = .tuple) :
    (Shape.closure arguments returns throws).argumentAttributes = arguments.attributes := by
  obtain ⟨shape, generics, attributes, isInout, label⟩ := arguments
  cases shape <;> first | rfl | exact absurd hkind (by simp [TypeExpr.kind, Shape.kind])

theorem respells_of_inout (hkind : arguments.kind = .tuple) (hinout : arguments.isInout = true) :
    TypeExpr.respells ⟨.closure arguments returns throws, [], attributes, isInout, label⟩ =
      false := by
  obtain ⟨shape, generics, attributes', isInout', label'⟩ := arguments
  cases shape <;> simp [TypeExpr.kind, Shape.kind] at hkind
  case tuple elements =>
      obtain rfl : isInout' = true := hinout
      simp [TypeExpr.respells, Shape.respells]

/-- A word in front of a parenthesis is read as a type, and the parenthesis is left. -/
theorem core_of_inout (s : List Char) :
    ∃ u, core ("inout ".toList ++ '(' :: s) = some (u, ' ' :: '(' :: s) := by
  have hname : IsPath "inout".toList := IsIdentifier.isPath (isIdentifier_of_all rfl)
  have hskip : skipBlanks (' ' :: '(' :: s) = '(' :: s :=
    skipBlanks_blank_of_head (by simp; decide)
  have hbreaks : Breaks (' ' :: '(' :: s) := by simp [Breaks]
  refine ⟨_, core_of_operand (composition_of_atom (atom_path hname hbreaks) ?_) ?_⟩ <;>
    rw [hskip] <;> simp

/-- Where a type without decorations begins, a tuple with modifiers is not read. -/
theorem core_of_modifiers {attributes : List Attribute} {isInout : Bool} (s : List Char)
    (h : attributes ≠ [] ∨ isInout = true) :
    let text := TypeExpr.writeDecorations attributes isInout none ++ '(' :: s
    (∀ c ∈ text.head?, isBlank c = false) ∧ labelMark text = none ∧
      (core text = none ∨ ∃ u r, core text = some (u, r) ∧ Stuck (skipBlanks r)) := by
  intro text
  cases attributes with
  | cons a attributes =>
      obtain ⟨s', htext⟩ : ∃ s', text = '@' :: s' := by
        simp [text, TypeExpr.writeDecorations_cons, Attribute.write]
      rw [htext]
      exact ⟨by simp; decide, labelMark_of_head (by simp; decide),
        .inl (core_of_head (by simp; decide))⟩
  | nil =>
      obtain rfl : isInout = true := h.resolve_left fun h => h rfl
      have htext : text = "inout".toList ++ ' ' :: '(' :: s := by
        simp [text, TypeExpr.writeDecorations]
      have hskip : skipBlanks (' ' :: '(' :: s) = '(' :: s :=
        skipBlanks_blank_of_head (by simp; decide)
      obtain ⟨u, hu⟩ := core_of_inout s
      rw [htext]
      refine ⟨by simp; decide, labelMark_append (isIdentifier_of_all rfl) (by simp; decide)
        (by simp [hskip]), .inr ⟨u, _, hu, ?_⟩⟩
      rw [hskip]
      exact ⟨'(', s, rfl, by decide⟩

theorem leadingName?_of_tuple (returns : TypeExpr) (throws : Bool)
    (hkind : arguments.kind = .tuple) :
    (Shape.closure arguments returns throws).leadingName? = none := by
  obtain ⟨shape, generics, attributes, isInout, label⟩ := arguments
  cases shape <;> first | rfl | exact absurd hkind (by simp [TypeExpr.kind, Shape.kind])

/-- The modifiers of a tuple that is the argument are read as those of the closure: its attributes
come back there, its `inout` does not. -/
theorem outcome_of_modifiers {mayHaveLabel : Bool} {s rest : List Char}
    (hnormal : ∀ a ∈ attributes, a.Normal) (henclosed : ∀ a ∈ attributes, a.Enclosed)
    (hargument : arguments.RegularNode) (henclosed' : arguments.EnclosedNode)
    (hnolabel : arguments.label = none) (hkind : arguments.kind = .tuple)
    (hcore : CoreOutcome ⟨.closure arguments returns throws, [], attributes, false, none⟩
      (argumentRespells arguments && returns.respells)
      (.closure (argumentReread arguments) returns.reread throws) rest (core ('(' :: s))) :
    let t : TypeExpr := ⟨.closure arguments returns throws, [], attributes, false, none⟩
    Outcome t.respells t.reread t.Other (fun r => Stuck (skipBlanks r)) rest
      (withDecorations mayHaveLabel core (TypeExpr.writeDecorations attributes false none ++
        (TypeExpr.writeDecorations arguments.attributes arguments.isInout none ++ '(' :: s))) := by
  intro t
  have hattributes := argumentAttributes_of_tuple returns throws hkind
  have hundecorated := undecorated_of_paren s
  have hnormal' : ∀ a ∈ attributes ++ arguments.attributes, a.Normal := fun a ha =>
    (List.mem_append.1 ha).elim (hnormal a) (hargument.attributes a)
  have hall : ∀ a ∈ attributes ++ arguments.attributes, a.Enclosed := fun a ha =>
    (List.mem_append.1 ha).elim (henclosed a) (henclosed' a)
  have hwrite : TypeExpr.writeDecorations attributes false none ++
      (TypeExpr.writeDecorations arguments.attributes arguments.isInout none ++ '(' :: s) =
      TypeExpr.writeDecorations (attributes ++ arguments.attributes) arguments.isInout none ++
        '(' :: s := by
    simp only [TypeExpr.writeDecorations, Bool.false_eq_true, if_false, List.flatMap_append,
      List.append_nil, List.append_assoc]
  rw [hwrite]
  by_cases hrespells : ∀ a ∈ attributes ++ arguments.attributes, a.respells
  case neg =>
      rw [withDecorations_write_of_not hnormal' hall hrespells]
      refine .inr ⟨?_, .inl rfl⟩
      rw [← Bool.not_eq_true, TypeExpr.respells_iff, hattributes]
      exact fun h => hrespells fun a ha => (List.mem_append.1 ha).elim (h.1.1 a) (h.1.2 a)
  cases hinout : arguments.isInout with
  | true =>
      -- the mark of the tuple is the closure's now, so whatever is read has another frame
      rw [respells_of_inout hkind hinout]
      refine outcome_of_mark hnormal' hall hrespells rfl rfl hundecorated ?_
      rcases hcore with ⟨-, hread⟩ | ⟨-, hread | ⟨u, r, hread, hr⟩⟩
      · exact .inr ⟨_, rest, hread, .inr ⟨rfl, rfl⟩⟩
      · exact .inl hread
      · exact .inr ⟨u, r, hread, hr.imp_right fun h => ⟨h.1, h.2.2.1⟩⟩
  | false =>
      rw [withDecorations_undecorated hnormal' hall hrespells (by simp) hundecorated
        fun _ _ => inoutMark_of_head (by simp)]
      refine outcome_decorate hcore ?_ fun _ => ?_
      · have hback := coreRespells_closure returns throws attributes false none hargument
          fun _ => hinout
        have hown : (∀ a ∈ attributes, a.respells) ∧ ∀ a ∈ arguments.attributes, a.respells :=
          ⟨fun a ha => hrespells a (by simp [ha]), fun a ha => hrespells a (by simp [ha])⟩
        rw [← hback, Bool.eq_iff_iff, TypeExpr.respells_iff, hattributes,
          leadingName?_of_tuple returns throws hkind]
        simpa [t] using fun _ => hown
      · rw [reread_closure returns throws attributes false none hargument hnolabel
          fun _ => hinout, hattributes]

/-- Behind an `inout` or a label of the closure the modifiers of a tuple are not read. -/
theorem outcome_of_modifiers_behind {mayHaveLabel : Bool} {s rest : List Char}
    (hnode : TypeExpr.RegularNode
      ⟨.closure arguments returns throws, [], attributes, isInout, label⟩)
    (henclosed : ∀ a ∈ attributes, a.Enclosed) (hlabel : label.isSome → mayHaveLabel = true)
    (hkind : arguments.kind = .tuple)
    (hmodifiers : arguments.attributes ≠ [] ∨ arguments.isInout = true)
    (hown : ¬ (isInout = false ∧ label = none)) :
    let t : TypeExpr := ⟨.closure arguments returns throws, [], attributes, isInout, label⟩
    Outcome t.respells t.reread t.Other (fun r => Stuck (skipBlanks r)) rest
      (withDecorations mayHaveLabel core (TypeExpr.writeDecorations attributes isInout label ++
        (TypeExpr.writeDecorations arguments.attributes arguments.isInout none ++ '(' :: s))) := by
  intro t
  have hnot : t.respells = false := by
    by_cases hinout : arguments.isInout = true
    · exact respells_of_inout hkind hinout
    · rw [← Bool.not_eq_true, TypeExpr.respells_iff, argumentAttributes_of_tuple _ _ hkind]
      exact fun h => h.2.2.1.elim (hmodifiers.resolve_right hinout) hown
  rw [hnot]
  by_cases hrespells : ∀ a ∈ attributes, a.respells
  case neg =>
      rw [withDecorations_write_of_not hnode.attributes henclosed hrespells]
      exact .inr ⟨rfl, .inl rfl⟩
  obtain ⟨hblank, hnoLabel, hread⟩ := core_of_modifiers s hmodifiers
  rw [withDecorations_write hnode.attributes henclosed hrespells
    (fun l hl => ⟨hnode.label l hl, hlabel (Option.isSome_of_mem hl)⟩) hblank
    (fun h₁ h₂ => absurd ⟨h₁, h₂⟩ hown) (fun h₁ h₂ => absurd ⟨h₁, h₂⟩ hown)
    fun _ _ => hnoLabel]
  rcases hread with hread | ⟨u, r, hread, hstuck⟩
  · exact .inr ⟨rfl, .inl (by rw [hread, Option.map_none])⟩
  · exact .inr ⟨rfl, .inr ⟨_, r, by rw [hread, Option.map_some], .inl hstuck⟩⟩

/-- A closure is read back if its argument and its result are, wherever its argument stands. -/
theorem readsBack_closure {mayHaveLabel : Bool}
    (hnode : TypeExpr.RegularNode
      ⟨.closure arguments returns throws, [], attributes, isInout, label⟩)
    (henclosed : ∀ a ∈ attributes, a.Enclosed) (hlabel : label.isSome → mayHaveLabel = true)
    (hargument : arguments.RegularNode) (henclosed' : arguments.EnclosedNode)
    (hoperand : arguments.kind ≠ .closure → OperandReadsBack arguments)
    (harguments : ReadsBack true arguments ∧ Opens (arguments.write .full))
    (hreturns : ReadsBack false returns ∧ Opens (returns.write .full)) :
    ReadsBack mayHaveLabel
      ⟨.closure arguments returns throws, [], attributes, isInout, label⟩ := by
  intro rest hrest
  have hnolabel := hnode.shape.2.1
  have hcore := closure_readsBack throws attributes isInout label hoperand harguments hnolabel
    hreturns hrest
  by_cases hmodified : arguments.kind = .tuple ∧
      (arguments.attributes ≠ [] ∨ arguments.isInout = true)
  case neg =>
      have hplain : (Shape.closure arguments returns throws).argumentAttributes = [] ∧
          (arguments.kind = .tuple → arguments.isInout = false) := by
        by_cases hkind : arguments.kind = .tuple
        · rw [argumentAttributes_of_tuple returns throws hkind]
          simpa [hkind] using hmodified
        · exact ⟨argumentAttributes_of_kind_ne hkind, fun h => absurd h hkind⟩
      exact outcome_of_plain hnode henclosed hlabel hargument hreturns hplain.1 hplain.2 hrest hcore
  case pos =>
      obtain ⟨hkind, hmodifiers⟩ := hmodified
      obtain ⟨s, htext⟩ : ∃ s, argumentText arguments ++ (arrowText throws ++
          (returns.write .full ++ rest)) = '(' :: s := by
        obtain ⟨s, hs⟩ := argumentText_of_tuple hkind
        exact ⟨_, by rw [hs]; rfl⟩
      rw [TypeExpr.write_eq, List.append_assoc, writeCore_closure hnolabel,
        argumentAttributes_of_tuple returns throws hkind, htext]
      rw [htext] at hcore
      simp only [hkind, decide_true, Bool.true_and]
      by_cases hown : isInout = false ∧ label = none
      · obtain ⟨rfl, rfl⟩ := hown
        exact outcome_of_modifiers hnode.attributes henclosed hargument henclosed' hnolabel hkind
          hcore
      · exact outcome_of_modifiers_behind hnode henclosed hlabel hkind hmodifiers hown

end Closure

/-! ## All expressions -/

/-- The expression is read back wherever it may stand. -/
structure Readable (t : TypeExpr) : Prop where
  readsBack : ∀ mayHaveLabel, (t.label.isSome → mayHaveLabel = true) → ReadsBack mayHaveLabel t
  operand : t.kind ≠ .closure → OperandReadsBack t
  path : t.kind = .named → PathReadsBack t

theorem readable_of_operand {t : TypeExpr} (hnode : t.RegularNode) (henclosed : t.EnclosedNode)
    (hclosure : t.kind ≠ .closure) (hnamed : t.kind ≠ .named) (h : OperandReadsBack t) :
    Readable t where
  readsBack _ hlabel := readsBack_of_operand hnode henclosed hlabel hclosure h
  operand _ := h
  path hkind := absurd hkind hnamed

theorem readable {t : TypeExpr} (h : t.Everywhere TypeExpr.RegularNode)
    (henclosed : t.Everywhere TypeExpr.EnclosedNode) : Readable t := by
  induction h with
  | @node t here children ih =>
      have hread : ∀ u ∈ t.children, Readable u := fun u hu => ih u hu (henclosed.child u hu)
      have hopens : ∀ u ∈ t.children, Opens (u.write .full) :=
        fun u hu => TypeExpr.opens_write (children u hu)
      have hnode := here
      have henclosed' := henclosed.here
      obtain ⟨hshape, hgenerics, -, -⟩ := here
      obtain ⟨shape, generics, attributes, isInout, label⟩ := t
      have hunlabeled : ∀ u ∈ generics, ReadsBack false u ∧ Opens (u.write .full) := by
        intro u hu
        have hchild : u ∈ TypeExpr.children ⟨shape, generics, attributes, isInout, label⟩ := by
          simp [TypeExpr.children, hu]
        exact ⟨(hread u hchild).readsBack false (by simp [hgenerics u hu]), hopens u hchild⟩
      cases shape with
      | named type =>
          obtain ⟨name, inner⟩ := type
          have hpath : PathReadsBack ⟨.named ⟨name, inner⟩, generics, attributes, isInout, label⟩ :=
            pathReadsBack_named hshape.1 hunlabeled fun u hu =>
              ⟨(hshape.2 u hu).1, (hshape.2 u hu).2, (hread u (by
                simp [TypeExpr.children, Shape.children, Option.mem_def.1 hu])).path
                (hshape.2 u hu).2.1⟩
          have hoperand := operandReadsBack_of_path hpath (by
            simp only [TypeExpr.writeCore, Shape.write, NameStyle.spell, List.append_assoc]
            exact head_append_of_opens _ (head_of_isPath hshape.1))
          exact ⟨fun _ hlabel => readsBack_of_operand hnode henclosed' hlabel (by
            simp [TypeExpr.kind, Shape.kind]) hoperand, fun _ => hoperand, fun _ => hpath⟩
      | tuple elements =>
          obtain rfl : generics = [] := hshape.1
          refine readable_of_operand hnode henclosed' (by simp [TypeExpr.kind, Shape.kind])
            (by simp [TypeExpr.kind, Shape.kind]) (operandReadsBack_tuple hshape.2 fun u hu => ?_)
          have hchild : u ∈ TypeExpr.children
              ⟨.tuple elements, [], attributes, isInout, label⟩ := by
            simp [TypeExpr.children, Shape.children, hu]
          exact ⟨(hread u hchild).readsBack true fun _ => rfl, hopens u hchild⟩
      | composition constituents =>
          obtain rfl : generics = [] := hshape.1
          exact readable_of_operand hnode henclosed' (by simp [TypeExpr.kind, Shape.kind])
            (by simp [TypeExpr.kind, Shape.kind]) (operandReadsBack_composition hshape)
      | closure arguments returns throws =>
          obtain ⟨rfl, hnolabel, hnolabel'⟩ := hshape
          have hargument : arguments ∈ TypeExpr.children
              ⟨.closure arguments returns throws, [], attributes, isInout, label⟩ := by
            simp [TypeExpr.children, Shape.children]
          have hreturn : returns ∈ TypeExpr.children
              ⟨.closure arguments returns throws, [], attributes, isInout, label⟩ := by
            simp [TypeExpr.children, Shape.children]
          refine ⟨fun mayHaveLabel hlabel => ?_, fun hkind => absurd rfl hkind,
            fun hkind => absurd hkind (by simp [TypeExpr.kind, Shape.kind])⟩
          exact readsBack_closure hnode henclosed' hlabel (children _ hargument).here
            (henclosed.child _ hargument).here (hread _ hargument).operand
            ⟨(hread _ hargument).readsBack true fun _ => rfl, hopens _ hargument⟩
            ⟨(hread _ hreturn).readsBack false (by simp [hnolabel']), hopens _ hreturn⟩

end Grammar

end SwiftSurface
