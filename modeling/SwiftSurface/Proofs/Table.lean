import Mathlib.Algebra.BigOperators.Group.List.Basic
import SwiftSurface.Table

/-!
# Laws of tables

Writing back what a table holds changes nothing (`insert_of_get?`). Everything that is said about
the get-or-insert steps of an inventory rests on this law and on `Table.get?_insert`.

A table is made up of its entries (`ofList_entries`) and determined by what it has at each key
(`ext_get?`), and writing changes a sum over its
values by what is written less what was there (`total_insert`).
-/

namespace SwiftSurface.Table

variable {κ α : Type} [Ord κ]

variable [Std.TransOrd κ]

/-! ## Tables from their entries -/

theorem insertEntry_of_forall_lt {key : κ} {value : α} {entries : List (κ × α)}
    (h : ∀ entry ∈ entries, compare entry.1 key = .lt) :
    insertEntry key value entries = entries ++ [(key, value)] := by
  induction entries with
  | nil => rfl
  | cons head rest ih =>
      have hhead : compare key head.1 = .gt :=
        Std.OrientedCmp.gt_of_lt (h head List.mem_cons_self)
      have hrest := ih fun entry hentry => h entry (List.mem_cons_of_mem head hentry)
      simp [insertEntry, hhead, hrest]

/-- Entries in ascending order, all of them behind those of a table, are written at its end. -/
theorem entries_foldl_insert {t : Table κ α} {more : List (κ × α)}
    (h : (t.entries ++ more).Pairwise fun a b => compare a.1 b.1 = .lt) :
    (more.foldl (fun t entry => t.insert entry.1 entry.2) t).entries = t.entries ++ more := by
  induction more generalizing t with
  | nil => simp
  | cons entry more ih =>
      have hlast : (t.insert entry.1 entry.2).entries = t.entries ++ [entry] :=
        insertEntry_of_forall_lt fun other hother =>
          (List.pairwise_append.1 h).2.2 other hother entry List.mem_cons_self
      have hsplit : t.entries ++ entry :: more = (t.insert entry.1 entry.2).entries ++ more := by
        rw [hlast, List.append_assoc, List.singleton_append]
      rw [hsplit] at h ⊢
      exact ih h

/-- The entries of a table make up the table. -/
theorem ofList_entries (t : Table κ α) : ofList t.entries = t :=
  ext_entries (entries_foldl_insert (t := empty) t.ascending)

/-! ## Reading and writing -/

/-- In an ascending list, a key below the first entry is nowhere. -/
theorem find?_eq_none_of_lt {key : κ} {head : κ × α} {rest : List (κ × α)}
    (hlt : compare key head.1 = .lt)
    (hasc : (head :: rest).Pairwise fun a b => compare a.1 b.1 = .lt) :
    (head :: rest).find? (fun entry => compare entry.1 key == .eq) = none := by
  rw [List.find?_eq_none]
  intro entry hmem
  have habove : compare key entry.1 = .lt := by
    rcases List.mem_cons.1 hmem with rfl | hrest
    · exact hlt
    · exact Std.TransCmp.lt_trans hlt ((List.pairwise_cons.1 hasc).1 entry hrest)
  rw [Std.OrientedOrd.eq_swap, habove]
  decide

/-- The first key of an ascending list is nowhere else in it. -/
theorem find?_tail_eq_none {head : κ × α} {rest : List (κ × α)}
    (hasc : (head :: rest).Pairwise fun a b => compare a.1 b.1 = .lt) :
    rest.find? (fun entry => compare entry.1 head.1 == .eq) = none := by
  rw [List.find?_eq_none]
  intro entry hmem
  have habove := (List.pairwise_cons.1 hasc).1 entry hmem
  rw [Std.OrientedOrd.eq_swap, habove]
  decide

variable [Std.LawfulEqOrd κ]

theorem insertEntry_of_find? {key : κ} {value : α} {entries : List (κ × α)}
    (hasc : entries.Pairwise fun a b => compare a.1 b.1 = .lt)
    (hfind : (entries.find? fun entry => compare entry.1 key == .eq).map Prod.snd = some value) :
    insertEntry key value entries = entries := by
  induction entries with
  | nil => simp at hfind
  | cons head rest ih =>
      simp only [insertEntry]
      split
      case h_1 hlt => simp [find?_eq_none_of_lt hlt hasc] at hfind
      case h_2 heq =>
          obtain rfl := Std.LawfulEqCmp.eq_of_compare heq
          simp only [List.find?_cons, Std.ReflCmp.compare_self, beq_self_eq_true, Option.map_some,
            Option.some.injEq] at hfind
          rw [← hfind]
      case h_3 hgt =>
          have hne : (compare head.1 key == .eq) = false := by
            rw [Std.OrientedOrd.eq_swap, hgt]
            decide
          rw [List.find?_cons, hne] at hfind
          rw [ih (List.pairwise_cons.1 hasc).2 hfind]

/-- Writing back the value that stands at a key changes nothing. -/
theorem insert_of_get? {t : Table κ α} {key : κ} {value : α} (h : t.get? key = some value) :
    t.insert key value = t :=
  ext_entries (insertEntry_of_find? t.ascending h)

omit [Std.TransOrd κ] in
/-- The values are what is read at the keys. -/
theorem mem_values_iff {t : Table κ α} {value : α} :
    value ∈ t.values ↔ ∃ key, t.get? key = some value := by
  constructor
  · intro hvalue
    obtain ⟨entry, hentry, rfl⟩ := List.mem_map.1 hvalue
    obtain ⟨before, after, hsplit⟩ := List.append_of_mem hentry
    have hbefore : before.find? (fun other => compare other.1 entry.1 == .eq) = none := by
      rw [List.find?_eq_none]
      intro other hother
      have hlt : compare other.1 entry.1 = .lt :=
        (List.pairwise_append.1 (hsplit ▸ t.ascending)).2.2 other hother entry (by simp)
      simp [hlt]
    exact ⟨entry.1, by simp [get?, hsplit, List.find?_append, hbefore, Std.ReflCmp.compare_self]⟩
  · rintro ⟨key, hget⟩
    obtain ⟨entry, hfind, rfl⟩ := Option.map_eq_some_iff.1 hget
    exact List.mem_map.2 ⟨entry, List.mem_of_find?_eq_some hfind, rfl⟩

/-! ## Tables with the same readings -/

/-- The heads of ascending lists with the same readings have the same key: the smaller key would be
read in one of the lists only. -/
theorem head_eq_of_find?_eq {x y : κ × α} {xs ys : List (κ × α)}
    (hx : (x :: xs).Pairwise fun a b => compare a.1 b.1 = .lt)
    (hy : (y :: ys).Pairwise fun a b => compare a.1 b.1 = .lt)
    (h : ∀ key, ((x :: xs).find? fun entry => compare entry.1 key == .eq).map Prod.snd =
      ((y :: ys).find? fun entry => compare entry.1 key == .eq).map Prod.snd) : x.1 = y.1 := by
  cases hcompare : compare x.1 y.1 with
  | lt =>
      have hread := h x.1
      rw [find?_eq_none_of_lt hcompare hy] at hread
      simp [Std.ReflCmp.compare_self] at hread
  | eq => exact Std.LawfulEqCmp.eq_of_compare hcompare
  | gt =>
      have hread := h y.1
      rw [find?_eq_none_of_lt (Std.OrientedCmp.lt_of_gt hcompare) hx] at hread
      simp [Std.ReflCmp.compare_self] at hread

theorem entries_eq_of_find?_eq {xs ys : List (κ × α)}
    (hx : xs.Pairwise fun a b => compare a.1 b.1 = .lt)
    (hy : ys.Pairwise fun a b => compare a.1 b.1 = .lt)
    (h : ∀ key, (xs.find? fun entry => compare entry.1 key == .eq).map Prod.snd =
      (ys.find? fun entry => compare entry.1 key == .eq).map Prod.snd) : xs = ys := by
  induction xs generalizing ys with
  | nil =>
      cases ys with
      | nil => rfl
      | cons y ys => simpa [Std.ReflCmp.compare_self] using h y.1
  | cons x xs ih =>
      cases ys with
      | nil => simpa [Std.ReflCmp.compare_self] using h x.1
      | cons y ys =>
          have hkey := head_eq_of_find?_eq hx hy h
          have hvalue := h x.1
          simp only [List.find?_cons, hkey, Std.ReflCmp.compare_self, beq_self_eq_true,
            Option.map_some, Option.some.injEq] at hvalue
          obtain rfl : x = y := Prod.ext hkey hvalue
          refine congrArg (x :: ·) (ih (List.pairwise_cons.1 hx).2 (List.pairwise_cons.1 hy).2 ?_)
          intro key
          by_cases hhead : compare x.1 key = .eq
          · obtain rfl := Std.LawfulEqCmp.eq_of_compare hhead
            rw [find?_tail_eq_none hx, find?_tail_eq_none hy]
          · simpa [List.find?_cons, hhead] using h key

/-- Two tables that have the same at every key are the same. -/
theorem ext_get? {t u : Table κ α} (h : ∀ key, t.get? key = u.get? key) : t = u :=
  ext_entries (entries_eq_of_find?_eq t.ascending u.ascending h)

/-- Of two values written at one key the later stays. -/
theorem insert_insert (t : Table κ α) (key : κ) (first second : α) :
    (t.insert key first).insert key second = t.insert key second := by
  refine ext_get? fun other => ?_
  rw [get?_insert, get?_insert, get?_insert]
  split <;> rfl

/-! ## Sums over the values of a table -/

section Total

variable {M : Type} [AddCommMonoid M]

/-- The sum of a weight over the values. -/
def total (t : Table κ α) (weight : α → M) : M :=
  (t.values.map weight).sum

theorem sum_insertEntry {key : κ} {value : α} (weight : α → M) {entries : List (κ × α)}
    (hasc : entries.Pairwise fun a b => compare a.1 b.1 = .lt) :
    ((insertEntry key value entries).map fun entry => weight entry.2).sum +
        (((entries.find? fun entry => compare entry.1 key == .eq).map Prod.snd).map weight).getD 0 =
      (entries.map fun entry => weight entry.2).sum + weight value := by
  induction entries with
  | nil => simp [insertEntry]
  | cons head rest ih =>
      simp only [insertEntry]
      split
      case h_1 hlt =>
          simp [find?_eq_none_of_lt hlt hasc, add_comm]
      case h_2 heq =>
          obtain rfl := Std.LawfulEqCmp.eq_of_compare heq
          simp only [List.map_cons, List.sum_cons, List.find?_cons, Std.ReflCmp.compare_self,
            beq_self_eq_true, Option.map_some, Option.getD_some]
          rw [add_comm (weight head.2), add_assoc, add_comm, add_assoc]
      case h_3 hgt =>
          have hne : (compare head.1 key == .eq) = false := by
            rw [Std.OrientedOrd.eq_swap, hgt]
            decide
          simp only [List.map_cons, List.sum_cons, List.find?_cons, hne, add_assoc]
          rw [ih (List.pairwise_cons.1 hasc).2]

/-- The sum with a value written at a key, and the weight of what was there, make up the sum before
and the weight of the value. -/
theorem total_insert (t : Table κ α) (key : κ) (value : α) (weight : α → M) :
    (t.insert key value).total weight + ((t.get? key).map weight).getD 0 =
      t.total weight + weight value := by
  simpa [total, values, insert, get?, Function.comp_def] using sum_insertEntry weight t.ascending

end Total

end SwiftSurface.Table
