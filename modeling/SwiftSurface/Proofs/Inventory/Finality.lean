import Mathlib.Data.String.Basic
import SwiftSurface.Declaration.Sample
import SwiftSurface.Proofs.Inventory.Places
import SwiftSurface.Proofs.Inventory.Runs

/-!
# Final functions

A function is final unless a symbol of a witness table refers to it. A type keeps every such symbol
that it is given, under its kind and in the order of the run, and nothing that is filed later
changes them (`TypeSurface.ofKind_addAll`). So the witness declarations of a run alone decide which
functions are final afterwards (`TypeSurface.isFinal_addAll`).
-/

namespace SwiftSurface

/-! ## Witness declarations -/

/-- The kind of a symbol of a witness table. -/
def Signature.witnessKind? : Signature → Option WitnessKind
  | .witnessTable kind _ => some kind
  | _ => none

/-- The function that the declaration files under this kind of witness table symbols. -/
def Declaration.witnessOf? (kind : WitnessKind) (d : Declaration) : Option FunctionDecl :=
  d.function?.filter fun f => f.signature.witnessKind? = some kind

/-- Does this declare a symbol of a witness table, of whatever kind? -/
def Declaration.isWitness (d : Declaration) : Bool :=
  d.function?.any fun f => f.signature.witnessKind?.isSome

theorem Signature.witnessKind?_eq_some {s : Signature} {kind : WitnessKind} :
    s.witnessKind? = some kind ↔ ∃ conformsTo, s = .witnessTable kind conformsTo := by
  cases s <;> simp [witnessKind?]

namespace Declaration

variable {d : Declaration} {f : FunctionDecl} {kind : WitnessKind}

theorem witnessOf?_eq_some :
    d.witnessOf? kind = some f ↔
      d.function? = some f ∧ ∃ conformsTo, f.signature = .witnessTable kind conformsTo := by
  simp only [witnessOf?, Option.filter_eq_some_iff, decide_eq_true_eq,
    Signature.witnessKind?_eq_some]

theorem eq_of_function? (h : d.function? = some f) : d = .function f ∨ d = .methodDescriptor f := by
  cases d <;> simp_all [function?]

theorem isWitness_iff : d.isWitness ↔ ∃ kind f, d.witnessOf? kind = some f := by
  simp only [isWitness, Option.any_eq_true, Option.isSome_iff_exists, witnessOf?_eq_some,
    Signature.witnessKind?_eq_some]
  constructor
  · rintro ⟨f, hf, kind, hkind⟩
    exact ⟨kind, f, hf, hkind⟩
  · rintro ⟨kind, f, hf, hkind⟩
    exact ⟨f, hf, kind, hkind⟩

theorem mangledName_of_witnessOf? (h : d.witnessOf? kind = some f) :
    d.mangledName = f.mangledName := by
  rcases eq_of_function? (witnessOf?_eq_some.1 h).1 with rfl | rfl <;> rfl

end Declaration

/-- Only witness declarations go to the place of their kind. -/
theorem Destination.witnesses_of_place {owner : NominalName} {f : FunctionDecl}
    {isDescriptor : Bool} {kind : WitnessKind}
    (h : (Destination.of owner f isDescriptor).place f = .witnesses kind) :
    ∃ conformsTo, f.signature = .witnessTable kind conformsTo := by
  cases hto : Destination.of owner f isDescriptor with
  | witnessTable =>
      cases hf : f.signature with
      | witnessTable kind' conformsTo =>
          simp only [hto, Destination.place, hf] at h
          obtain rfl := TypeSurface.Place.witnesses.inj h
          exact ⟨conformsTo, rfl⟩
      | _ => simp [hto, Destination.place, hf] at h
  | _ => simp [hto, Destination.place] at h

theorem Declaration.witnessOf?_of_placeIn {owner : NominalName} {d : Declaration}
    {kind : WitnessKind} (h : d.placeIn owner = .witnesses kind) :
    ∃ f, d.witnessOf? kind = some f := by
  cases d with
  | function f => exact ⟨f, witnessOf?_eq_some.2 ⟨rfl, Destination.witnesses_of_place h⟩⟩
  | methodDescriptor f => exact ⟨f, witnessOf?_eq_some.2 ⟨rfl, Destination.witnesses_of_place h⟩⟩
  | _ => simp [placeIn] at h

namespace TypeSurface

variable {c : TypeSurface} {f : FunctionDecl}

/-! ## The witness table of a run -/

/-- A witness declaration is appended to the symbols of its kind, and any other leaves them as they
are. -/
theorem ofKind_add (c : TypeSurface) (d : Declaration) (kind : WitnessKind) :
    (c.add d).after.witnessTable.ofKind kind =
      c.witnessTable.ofKind kind ++ (d.witnessOf? kind).toList := by
  cases hd : d.witnessOf? kind with
  | none =>
      have hplace : Place.witnesses kind ≠ d.placeIn c.name := by
        intro heq
        obtain ⟨f, hf⟩ := Declaration.witnessOf?_of_placeIn heq.symm
        simp [hd] at hf
      have hsame := (add_filesAt c.name d).elsewhere c rfl _ hplace
      simp only [read] at hsame
      simp [WitnessTable.ofKind, hsame]
  | some f =>
      obtain ⟨hfunction, conformsTo, hsignature⟩ := Declaration.witnessOf?_eq_some.1 hd
      have hadd (isDescriptor : Bool) :
          (c.addFunction f isDescriptor).after.witnessTable.ofKind kind =
            c.witnessTable.ofKind kind ++ [f] := by
        simp [addFunction, Destination.of, hsignature, addAt, WitnessTable.add?,
          WitnessTable.ofKind, Table.get?_insert_self]
      rcases Declaration.eq_of_function? hfunction with rfl | rfl
      · exact hadd false
      · exact hadd true

/-- After a run a type holds under each kind the witness declarations of the run, in their order,
behind those that it held before. -/
theorem ofKind_addAll (c : TypeSurface) (run : List Declaration) (kind : WitnessKind) :
    (c.addAll run).witnessTable.ofKind kind =
      c.witnessTable.ofKind kind ++ run.filterMap (·.witnessOf? kind) := by
  induction run generalizing c with
  | nil => simp [addAll]
  | cons d run ih =>
      rw [addAll_cons, ih, ofKind_add, List.append_assoc]
      cases hd : d.witnessOf? kind <;> simp [hd]

/-! ## Finality -/

/-- The mark is dropped up to its last byte. -/
theorem dropMark_append (mark rest : List Char) :
    dropMark (String.utf8Len mark) (mark ++ rest) = some rest := by
  induction mark with
  | nil => simp [dropMark]
  | cons c mark ih =>
      have hsize := c.utf8Size_pos
      obtain ⟨bytes, hbytes⟩ : ∃ bytes, String.utf8Len mark + c.utf8Size = bytes + 1 :=
        ⟨String.utf8Len mark + c.utf8Size - 1, by omega⟩
      have hleft : bytes + 1 - c.utf8Size = String.utf8Len mark := by omega
      rw [String.utf8Len_cons, hbytes, List.cons_append, dropMark, if_pos (by omega), hleft]
      exact ih

/-- A function that has text behind its mangling mark is final unless the witness tables hold a
symbol that ends with this text. -/
theorem isFinal_eq_false_iff {mark ending : String} (hname : f.mangledName = mark ++ ending)
    (hmark : mark.utf8ByteSize = 3) (hending : ending ≠ "") :
    c.isFinal f = false ↔
      ∃ g ∈ c.witnessTable.all, ∃ start, g.mangledName = start ++ ending := by
  have hsize : String.utf8Len mark.toList = 3 := by
    rw [← String.utf8ByteSize_ofList, String.ofList_toList, hmark]
  have hdrop : dropMark 3 f.mangledName.toList = some ending.toList := by
    rw [hname, String.toList_append, ← hsize, dropMark_append]
  have hends (name : String) :
      ending.toList.isSuffixOf name.toList ↔ ∃ start, name = start ++ ending := by
    rw [List.isSuffixOf_iff_suffix]
    constructor
    · rintro ⟨start, hstart⟩
      exact ⟨String.ofList start, String.toList_inj.1 (by simp [hstart])⟩
    · rintro ⟨start, rfl⟩
      simp
  obtain ⟨c, rest, hcons⟩ := List.exists_cons_of_ne_nil (mt String.toList_eq_nil_iff.1 hending)
  rw [hcons] at hdrop hends
  simp only [isFinal, hdrop, WitnessTable.mangledNames, Bool.not_eq_false', List.any_map,
    List.any_eq_true, Function.comp_apply, hends]

theorem mem_all_iff {t : WitnessTable} : f ∈ t.all ↔ ∃ kind, f ∈ t.ofKind kind := by
  simp only [WitnessTable.all, List.mem_flatten, Table.mem_values_iff, WitnessTable.ofKind]
  constructor
  · rintro ⟨fs, ⟨kind, hkind⟩, hf⟩
    exact ⟨kind, by simpa [hkind] using hf⟩
  · rintro ⟨kind, hf⟩
    cases hkind : t.groups.get? kind with
    | none => simp [hkind] at hf
    | some fs => exact ⟨fs, ⟨kind, hkind⟩, by simpa [hkind] using hf⟩

/-- The symbols of the witness tables after a run are the witness declarations of the run. -/
theorem mem_witnesses_addAll {name : NominalName} {run : List Declaration} :
    f ∈ ((empty name).addAll run).witnessTable.all ↔
      ∃ d ∈ run, ∃ kind, d.witnessOf? kind = some f := by
  have hnone (kind : WitnessKind) : (empty name).witnessTable.ofKind kind = [] := rfl
  simp only [mem_all_iff, ofKind_addAll, hnone, List.nil_append, List.mem_filterMap]
  constructor
  · rintro ⟨kind, d, hd, hf⟩
    exact ⟨d, hd, kind, hf⟩
  · rintro ⟨d, hd, kind, hf⟩
    exact ⟨kind, d, hd, hf⟩

theorem isFinal_addAll_eq_false_iff (name : NominalName) {mark ending : String}
    (hname : f.mangledName = mark ++ ending) (hmark : mark.utf8ByteSize = 3) (hending : ending ≠ "")
    (run : List Declaration) :
    ((empty name).addAll run).isFinal f = false ↔
      ∃ d ∈ run, d.isWitness ∧ ∃ start, d.mangledName = start ++ ending := by
  simp only [isFinal_eq_false_iff hname hmark hending, mem_witnesses_addAll,
    Declaration.isWitness_iff]
  constructor
  · rintro ⟨g, ⟨d, hd, kind, hg⟩, hends⟩
    exact ⟨d, hd, ⟨kind, g, hg⟩, by rwa [Declaration.mangledName_of_witnessOf? hg]⟩
  · rintro ⟨d, hd, ⟨kind, g, hg⟩, hends⟩
    exact ⟨g, ⟨d, hd, kind, hg⟩, by rwa [← Declaration.mangledName_of_witnessOf? hg]⟩

/-- **The witness declarations of a run decide which functions are final.** A function that has text
behind its mangling mark, the first three bytes of its mangled name, is not final after a run just
if the run has a witness declaration, of whatever kind, whose mangled name ends with this text. So
neither the order of the run matters nor any other declaration, and what is not final stays so. -/
theorem isFinal_addAll (name : NominalName) (f : FunctionDecl) {mark ending : String}
    (hname : f.mangledName = mark ++ ending) (hmark : mark.utf8ByteSize = 3) (hending : ending ≠ "")
    (run : List Declaration) :
    (((empty name).addAll run).isFinal f = false ↔
      ∃ d ∈ run, d.isWitness ∧ ∃ start, d.mangledName = start ++ ending) ∧
    (∀ reordered, reordered.Perm run →
      ((empty name).addAll reordered).isFinal f = ((empty name).addAll run).isFinal f) ∧
    (∀ other, other.filter (·.isWitness) = run.filter (·.isWitness) →
      ((empty name).addAll other).isFinal f = ((empty name).addAll run).isFinal f) ∧
    (∀ later, ((empty name).addAll run).isFinal f = false →
      ((empty name).addAll (run ++ later)).isFinal f = false) := by
  have hfinal := isFinal_addAll_eq_false_iff name hname hmark hending
  -- only which witness declarations a run has matters
  have hsame {run other : List Declaration} (h : ∀ d, d.isWitness → (d ∈ other ↔ d ∈ run)) :
      ((empty name).addAll other).isFinal f = ((empty name).addAll run).isFinal f := by
    rw [Bool.eq_iff_iff, ← not_iff_not, Bool.not_eq_true, Bool.not_eq_true, hfinal, hfinal]
    refine exists_congr fun d => ?_
    constructor
    · rintro ⟨hd, hwitness, hends⟩
      exact ⟨(h d hwitness).1 hd, hwitness, hends⟩
    · rintro ⟨hd, hwitness, hends⟩
      exact ⟨(h d hwitness).2 hd, hwitness, hends⟩
  refine ⟨hfinal run, fun reordered hperm => ?_, fun other hfilter => ?_, fun later hrun => ?_⟩
  · exact hsame fun d _ => hperm.mem_iff
  · refine hsame fun d hwitness => ?_
    have hmem := congrArg (d ∈ ·) hfilter
    simpa [hwitness] using hmem
  · obtain ⟨d, hd, hrest⟩ := (hfinal run).1 hrun
    exact (hfinal _).2 ⟨d, List.mem_append_left later hd, hrest⟩

/-- A witness declaration that comes as the descriptor of a method counts too, and the mark may hold
a character of more than one byte. -/
theorem isFinal_addAll_descriptor :
    let name : NominalName := ⟨"M", ["Foo"], .classType⟩
    let f := Sample.method "M" "Foo" "bar" "ß3bar"
    let method := Declaration.function (Sample.method "M" "Foo" "bar" "T3bar")
    let witness := Declaration.methodDescriptor (Sample.witnessTable "M" "Foo" "_T0WPbar")
    "ß3".utf8ByteSize = 3 ∧ ((empty name).addAll [method]).isFinal f = true ∧
      ((empty name).addAll [witness, method]).isFinal f = false ∧
      ((empty name).addAll ([witness, method] ++ [method])).isFinal f = false := by
  intro name f method witness
  have hmark : "ß3".utf8ByteSize = 3 := by decide
  have hname : f.mangledName = "ß3" ++ "bar" := rfl
  obtain ⟨hwithout, -⟩ := isFinal_addAll name f hname hmark (by decide) [method]
  obtain ⟨hwith, -, -, hlater⟩ := isFinal_addAll name f hname hmark (by decide) [witness, method]
  have hfalse := hwith.2 ⟨witness, by simp, rfl, "_T0WP", rfl⟩
  refine ⟨hmark, ?_, hfalse, hlater [method] hfalse⟩
  rw [← Bool.not_eq_false, hwithout]
  rintro ⟨d, hd, hwitness, -⟩
  obtain rfl := List.mem_singleton.1 hd
  exact absurd hwitness (by decide)

end TypeSurface

end SwiftSurface
