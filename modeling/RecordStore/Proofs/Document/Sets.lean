import Mathlib.Data.List.Pairwise
import RecordStore.Document.Basic

/-!
Sets in documents. The elements of a set are single things; they are put in the order of their
literals, and no two of them are the same. A set in this form stays as it is when its elements are
taken for those of a set again.
-/

namespace RecordStore
namespace Document

/-- A value without parts. -/
def IsSingle : Value → Prop
  | .null | .bool _ | .int _ | .float _ | .text _ | .bytes _ | .date _ => True
  | _ => False

theorem double_equals_comm (x y : Double) : x.equals y = y.equals x := by
  rw [Double.equals, Double.equals, Bool.and_comm (!x.isNaN), Bool.beq_comm]

theorem date_equals_comm (d e : DateTime) : d.equals e = e.equals d := by
  simp only [DateTime.equals]
  cases d.offset <;> cases e.offset <;> simp [Bool.beq_comm]

/-- Being the same element does not depend on the order. -/
theorem sameElement_comm {v w : Value} (hv : IsSingle v) (hw : IsSingle w) :
    sameElement v w = sameElement w v := by
  cases v <;> cases w <;> first
    | exact hv.elim
    | exact hw.elim
    | simp [sameElement, Value.equals, Value.numericEquals, Value.numeric?, Value.Numeric.equals,
        double_equals_comm, date_equals_comm, Bool.and_comm, Bool.beq_comm]

/-! ### Each element once -/

theorem foldl_distinct_eq {same : Value → Value → Bool} (kept : List Value) {items : List Value}
    (h : (kept ++ items).Pairwise fun v w => same v w = false) :
    items.foldl (fun kept v => if kept.any (same · v) then kept else kept ++ [v]) kept =
      kept ++ items := by
  induction items generalizing kept with
  | nil => rw [List.foldl_nil, List.append_nil]
  | cons v rest ih =>
      have hv : kept.any (same · v) = false := by
        rw [List.any_eq_false]
        intro w hw
        rw [List.pairwise_append] at h
        rw [h.2.2 w hw v List.mem_cons_self]
        exact Bool.false_ne_true
      rw [List.foldl_cons, hv, if_neg Bool.false_ne_true, ih _ (by rwa [List.append_assoc]),
        List.append_assoc]
      rfl

theorem distinctBy_eq {same : Value → Value → Bool} {items : List Value}
    (h : items.Pairwise fun v w => same v w = false) : Value.distinctBy same items = items :=
  foldl_distinct_eq [] h

theorem pairwise_foldl_distinct {same : Value → Value → Bool} {kept : List Value}
    (items : List Value) (h : kept.Pairwise fun v w => same v w = false) :
    (items.foldl (fun kept v => if kept.any (same · v) then kept else kept ++ [v]) kept).Pairwise
      fun v w => same v w = false := by
  induction items generalizing kept with
  | nil => exact h
  | cons v rest ih =>
      rw [List.foldl_cons]
      split
      · exact ih h
      · next hv =>
        rw [Bool.not_eq_true, List.any_eq_false] at hv
        refine ih (List.pairwise_append.2 ⟨h, List.pairwise_singleton _ _, ?_⟩)
        intro w hw u hu
        rw [List.mem_singleton.1 hu]
        simpa using hv w hw

theorem pairwise_distinctBy (same : Value → Value → Bool) (items : List Value) :
    (Value.distinctBy same items).Pairwise fun v w => same v w = false :=
  pairwise_foldl_distinct items List.Pairwise.nil

theorem mem_foldl_distinct {same : Value → Value → Bool} {kept items : List Value} {v : Value}
    (h : v ∈ items.foldl (fun kept v => if kept.any (same · v) then kept else kept ++ [v]) kept) :
    v ∈ kept ∨ v ∈ items := by
  induction items generalizing kept with
  | nil => exact .inl h
  | cons w rest ih =>
      rw [List.foldl_cons] at h
      rcases ih h with h | h
      · split at h
        · exact .inl h
        · rcases List.mem_append.1 h with h | h
          · exact .inl h
          · exact .inr (List.mem_singleton.1 h ▸ List.mem_cons_self)
      · exact .inr (List.mem_cons_of_mem _ h)

theorem mem_of_mem_distinctBy {same : Value → Value → Bool} {items : List Value} {v : Value}
    (h : v ∈ Value.distinctBy same items) : v ∈ items :=
  (mem_foldl_distinct h).resolve_left List.not_mem_nil

/-! ### The order of literals -/

/-- Values with their literals. -/
def withLiterals (items : List Value) : List (String × Value) := items.map fun v => (v.literal, v)

theorem sortByLiteral_perm (items : List Value) : (sortByLiteral (withLiterals items)).Perm items := by
  have h := (List.mergeSort_perm (withLiterals items) fun a b => decide (a.1 ≤ b.1)).map Prod.snd
  rwa [withLiterals, List.map_map, show Prod.snd ∘ (fun v : Value => (v.literal, v)) = id from rfl,
    List.map_id] at h

theorem sortByLiteral_mem {α : Type} {items : List (String × α)} {a : α}
    (h : a ∈ sortByLiteral items) : ∃ s, (s, a) ∈ items := by
  obtain ⟨⟨s, b⟩, hmem, rfl⟩ := List.mem_map.1 h
  exact ⟨s, (List.mergeSort_perm _ _).mem_iff.1 hmem⟩

/-- Elements in the order of their literals. -/
def IsSorted (items : List Value) : Prop := items.Pairwise fun v w => v.literal ≤ w.literal

theorem isSorted_sortByLiteral (items : List Value) :
    IsSorted (sortByLiteral (withLiterals items)) := by
  have hsorted := @List.pairwise_mergeSort _ (fun a b : String × Value => decide (a.1 ≤ b.1))
    (fun a b c hab hbc => by simpa using String.le_trans (of_decide_eq_true hab) (of_decide_eq_true hbc))
    (fun a b => by simpa using String.le_total a.1 b.1) (withLiterals items)
  have hliteral : ∀ m ∈ (withLiterals items).mergeSort fun a b => decide (a.1 ≤ b.1),
      m.1 = m.2.literal := by
    intro m hm
    obtain ⟨v, _, rfl⟩ := List.mem_map.1 ((List.mergeSort_perm _ _).mem_iff.1 hm)
    rfl
  rw [IsSorted, sortByLiteral, List.pairwise_map]
  refine hsorted.imp_of_mem fun ha hb hab => ?_
  rw [← hliteral _ ha, ← hliteral _ hb]
  exact of_decide_eq_true hab

/-- What is in the order of literals stays in it. -/
theorem sortByLiteral_map {α : Type} {items : List Value} (h : IsSorted items) (f : Value → α) :
    sortByLiteral (items.map fun v => (v.literal, f v)) = items.map f := by
  rw [sortByLiteral, List.mergeSort_of_pairwise]
  · rw [List.map_map]
    rfl
  · rw [List.pairwise_map]
    exact h.imp fun hvw => decide_eq_true hvw

/-! ### Canonical elements -/

/-- The elements of a set as it is kept. -/
structure IsCanonical (items : List Value) : Prop where
  single : ∀ v ∈ items, IsSingle v
  sorted : IsSorted items
  distinct : items.Pairwise fun v w => sameElement v w = false

theorem unhashable?_of_isSingle {v : Value} (h : IsSingle v) : v.unhashable? = none := by
  cases v <;> first | exact h.elim | rfl

theorem findSome?_unhashable {items : List Value} (h : ∀ v ∈ items, IsSingle v) :
    items.findSome? Value.unhashable? = none :=
  List.findSome?_eq_none_iff.2 fun v hv => unhashable?_of_isSingle (h v hv)

/-- The set of canonical elements has just these. -/
theorem setOfItems_of_isCanonical {items : List Value} (h : IsCanonical items) :
    setOfItems items = .ok (.set items) := by
  have hsort := sortByLiteral_map h.sorted id
  rw [List.map_id] at hsort
  simp only [setOfItems, findSome?_unhashable h.single, distinctBy_eq h.distinct]
  exact congrArg (fun items => Except.ok (Value.set items)) hsort

/-- A set of single things is kept in canonical form. -/
theorem isCanonical_of_setOfItems {items : List Value} (h : ∀ v ∈ items, IsSingle v) :
    ∃ elements, setOfItems items = .ok (.set elements) ∧ IsCanonical elements ∧
      ∀ v ∈ elements, v ∈ items := by
  have hperm := sortByLiteral_perm (Value.distinctBy sameElement items)
  have hmem : ∀ v ∈ sortByLiteral (withLiterals (Value.distinctBy sameElement items)), v ∈ items :=
    fun v hv => mem_of_mem_distinctBy (hperm.mem_iff.1 hv)
  refine ⟨_, by simp only [setOfItems, findSome?_unhashable h]; rfl, ⟨?_, ?_, ?_⟩, hmem⟩
  · exact fun v hv => h v (hmem v hv)
  · exact isSorted_sortByLiteral _
  · -- the relation is symmetric on the elements, so their order does not matter
    have hboth : (Value.distinctBy sameElement items).Pairwise fun v w =>
        sameElement v w = false ∧ sameElement w v = false := by
      refine (pairwise_distinctBy sameElement items).imp_of_mem fun hv hw hvw => ⟨hvw, ?_⟩
      rw [sameElement_comm (h _ (mem_of_mem_distinctBy hw)) (h _ (mem_of_mem_distinctBy hv)), hvw]
    exact ((hperm.pairwise_iff fun hvw => hvw.symm).2 hboth).imp And.left

end Document
end RecordStore
