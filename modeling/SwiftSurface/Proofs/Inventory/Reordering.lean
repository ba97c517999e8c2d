import SwiftSurface.Declaration.Sample
import SwiftSurface.Proofs.Inventory.Cells

/-!
# Reordering a run

Only the order within a cell matters to a run. Two orders of the same declarations in which those of
each cell come in the same order lead to the same inventory, and in each cell the same declarations
are refused for the same reasons (`addAll_of_keepsCellOrder`).

The proof takes the first declaration of one order to the front of the other, past declarations of
other cells, each of which it commutes with.
-/

namespace SwiftSurface

open Filed

/-- In another order of the same declarations, those of each cell come in the same order. -/
structure KeepsCellOrder (ds ds' : List Declaration) : Prop where
  perm : ds'.Perm ds
  filter : ∀ cell, ds'.filter (·.cell = cell) = ds.filter (·.cell = cell)

/-- Exchanging two neighbours of different cells keeps the order in each cell. -/
theorem KeepsCellOrder.swap (before after : List Declaration) {d e : Declaration}
    (hne : d.cell ≠ e.cell) :
    KeepsCellOrder (before ++ d :: e :: after) (before ++ e :: d :: after) := by
  constructor
  · exact (List.Perm.swap d e after).append_left before
  · intro cell
    by_cases hd : d.cell = cell
    · have he : e.cell ≠ cell := fun he => hne (hd.trans he.symm)
      simp [hd, he]
    · simp [List.filter_cons, hd]

/-- What is before the first declaration of one order in the other order is of other cells, and the
rest keeps the order in each cell. -/
theorem KeepsCellOrder.of_cons {d : Declaration} {ds ds' : List Declaration}
    (h : KeepsCellOrder (d :: ds) ds') :
    ∃ before after, ds' = before ++ d :: after ∧ (∀ e ∈ before, d.cell ≠ e.cell) ∧
      KeepsCellOrder ds (before ++ after) := by
  have hfirst := h.filter d.cell
  rw [List.filter_cons_of_pos (by simp), List.filter_eq_cons_iff] at hfirst
  obtain ⟨before, after, rfl, hbefore, -, -⟩ := hfirst
  have hother : ∀ e ∈ before, d.cell ≠ e.cell := by
    intro e he hsame
    exact hbefore e he (by simp [hsame])
  refine ⟨before, after, rfl, hother, ?_, ?_⟩
  · exact (List.perm_middle.symm.trans h.perm).cons_inv
  · intro cell
    have hcell := h.filter cell
    rw [List.filter_append, List.filter_cons, List.filter_cons] at hcell
    rw [List.filter_append]
    by_cases hd : d.cell = cell
    · have hnone : before.filter (·.cell = cell) = [] := by
        rw [List.filter_eq_nil_iff]
        intro e he
        simpa [← hd] using (hother e he).symm
      simpa [hnone, hd] using hcell
    · simpa [hd] using hcell

namespace Inventory

/-- The declarations of a run in order, each with why it is refused, if it is. -/
def outcomes (i : Inventory) : List Declaration → List (Declaration × Option SlotTaken)
  | [] => []
  | d :: ds => (d, (i.add d).rejection) :: (i.add d).after.outcomes ds

/-- The outcomes of the declarations of one cell. -/
def outcomesIn (i : Inventory) (ds : List Declaration) (cell : Cell) :
    List (Declaration × Option SlotTaken) :=
  (i.outcomes ds).filter (·.1.cell = cell)

/-- Two runs lead to the same inventory, with the same outcomes in each cell. -/
structure SameRun (i : Inventory) (ds ds' : List Declaration) : Prop where
  after : i.addAll ds' = i.addAll ds
  outcomes : ∀ cell, i.outcomesIn ds' cell = i.outcomesIn ds cell

variable {i : Inventory} {d e : Declaration} {ds ds' ds'' : List Declaration}

theorem SameRun.trans (h : SameRun i ds ds') (h' : SameRun i ds' ds'') : SameRun i ds ds'' :=
  ⟨h'.after.trans h.after, fun cell => (h'.outcomes cell).trans (h.outcomes cell)⟩

theorem SameRun.cons (h : SameRun (i.add d).after ds ds') : SameRun i (d :: ds) (d :: ds') := by
  constructor
  · exact h.after
  · intro cell
    have hcell := h.outcomes cell
    rw [outcomesIn, outcomesIn] at hcell
    simp only [outcomesIn, Inventory.outcomes, List.filter_cons, hcell]

theorem SameRun.swap (h : CommuteAt (fun i : Inventory => i.add d) (·.add e) i)
    (hne : d.cell ≠ e.cell) (ds : List Declaration) : SameRun i (d :: e :: ds) (e :: d :: ds) := by
  constructor
  · simp only [addAll_cons, h.after]
  · intro cell
    simp only [outcomesIn, Inventory.outcomes, h.after, h.first, h.second]
    by_cases hd : d.cell = cell
    · have he : e.cell ≠ cell := fun he => hne (hd.trans he.symm)
      simp [hd, he]
    · simp [List.filter_cons, hd]

/-- A declaration comes to the front past declarations of other cells. -/
theorem WellNamed.sameRun_middle (hi : i.WellNamed) {before after : List Declaration}
    (howners : OwnersAgree (d :: before)) (hne : ∀ e ∈ before, d.cell ≠ e.cell) :
    SameRun i (d :: (before ++ after)) (before ++ d :: after) := by
  induction before generalizing i with
  | nil => exact ⟨rfl, fun _ => rfl⟩
  | cons e before ih =>
      have hrest : SameRun (i.add e).after (d :: (before ++ after)) (before ++ d :: after) := by
        refine ih (hi.add e) (howners.of_subset ?_) fun x hx => hne x (List.mem_cons_of_mem _ hx)
        intro x hx
        rcases List.mem_cons.1 hx with rfl | hmem
        · exact List.mem_cons_self
        · exact List.mem_cons_of_mem _ (List.mem_cons_of_mem _ hmem)
      have hpast : CommuteAt (·.add d) (·.add e) i :=
        Inventory.add_commute hi (howners.of_subset (by simp)) (hne e (by simp))
      exact (SameRun.swap hpast (hne e (by simp)) _).trans hrest.cons

/-- From a well-named inventory, orders that agree in each cell make the same run. -/
theorem WellNamed.sameRun (hi : i.WellNamed) (howners : OwnersAgree ds)
    (h : KeepsCellOrder ds ds') : SameRun i ds ds' := by
  induction ds generalizing i ds' with
  | nil =>
      obtain rfl := List.perm_nil.1 h.perm
      exact ⟨rfl, fun _ => rfl⟩
  | cons d ds ih =>
      obtain ⟨before, after, rfl, hne, hrest⟩ := h.of_cons
      have hmem : d :: before ⊆ d :: ds := by
        intro e he
        exact h.perm.subset (by rcases List.mem_cons.1 he with rfl | hmem <;> simp [*])
      have htail := ih (hi.add d) (howners.of_subset (by simp)) hrest
      exact htail.cons.trans (hi.sameRun_middle (howners.of_subset hmem) hne)

/-- **Independent declarations commute.** From any inventory that a run leads to, two orders of the
same declarations in which those of each cell come in the same order lead to the same inventory. In
each cell the declarations have the same outcomes: the first is accepted, or refused for the same
reason, in one order just if it is in the other, and so on. -/
theorem addAll_of_keepsCellOrder (architecture : Architecture) (history : List Declaration)
    (howners : OwnersAgree ds) (h : KeepsCellOrder ds ds') :
    (addAll { architecture } history).addAll ds' = (addAll { architecture } history).addAll ds ∧
      ∀ cell, (addAll { architecture } history).outcomesIn ds' cell =
        (addAll { architecture } history).outcomesIn ds cell := by
  have hempty : WellNamed { architecture } := empty_every architecture
  obtain ⟨hafter, houtcomes⟩ := (hempty.addAll history).sameRun howners h
  exact ⟨hafter, houtcomes⟩

/-- A thunk that comes to the canonical function of an earlier run may come before a getter or after
it. The second getter of the property is refused in both orders, because it is after the first. -/
theorem addAll_of_keepsCellOrder_getter_and_thunk :
    let history := [.function (Sample.staticFunction "M" "Foo" "make" "f" false)]
    let getter := Declaration.function (Sample.propertyAccessor "M" "Foo" "size" "g1" .getter)
    let again := Declaration.function (Sample.propertyAccessor "M" "Foo" "size" "g2" .getter)
    let thunk := Declaration.function (Sample.staticFunction "M" "Foo" "make" "t" true)
    let i := addAll { architecture := .arm64 } history
    OwnersAgree [getter, thunk, again] ∧
      KeepsCellOrder [getter, thunk, again] [thunk, getter, again] ∧
      i.addAll [thunk, getter, again] = i.addAll [getter, thunk, again] ∧
      i.outcomesIn [thunk, getter, again] getter.cell =
        [(getter, none), (again, some ⟨.accessor .getter, "M.Foo", some "size"⟩)] := by
  intro history getter again thunk i
  have howners : OwnersAgree [getter, thunk, again] := by
    intro d hd e he owner howner owner' howner' _ _
    have hsame : ∀ d ∈ [getter, thunk, again], d.owner = some ⟨"M", ["Foo"], .classType⟩ := by
      decide
    rw [hsame d hd] at howner
    rw [hsame e he] at howner'
    exact (Option.mem_some.1 howner).symm.trans (Option.mem_some.1 howner')
  have horder : KeepsCellOrder [getter, thunk, again] [thunk, getter, again] :=
    KeepsCellOrder.swap [] [again] (by decide)
  obtain ⟨hafter, houtcomes⟩ := addAll_of_keepsCellOrder .arm64 history howners horder
  refine ⟨howners, horder, hafter, ?_⟩
  rw [houtcomes]
  decide

end Inventory

end SwiftSurface
