import Mathlib.Data.List.Sort
import RecordStore.OrderedRows
import RecordStore.Proofs.Key.ByteOrder
import RecordStore.Collection.Basic

/-!
Ordered rows as finite maps and sets. Insertion changes what is under one key and nothing else, and
it keeps the rows in ascending order.
-/

namespace RecordStore

/-- A test that tells which of two things comes first: a strict order in which any two different
things are in order. -/
structure IsOrder {κ : Type} (lt : κ → κ → Bool) : Prop where
  irrefl : ∀ a, lt a a = false
  trans : ∀ a b c, lt a b = true → lt b c = true → lt a c = true
  connected : ∀ a b, lt a b = false → lt b a = false → a = b

namespace OrderedRows

variable {κ α : Type} {lt : κ → κ → Bool}

/-- Rows in ascending order of their keys. -/
def Ascending (lt : κ → κ → Bool) (rows : List (κ × α)) : Prop :=
  rows.Pairwise fun a b => lt a.1 b.1 = true

theorem ne_of_lt (hlt : IsOrder lt) {a b : κ} (h : lt a b = true) : a ≠ b := by
  rintro rfl
  rw [hlt.irrefl] at h
  cases h

section Lookup

variable [BEq κ] [LawfulBEq κ]

theorem lookup_insert_self (hlt : IsOrder lt) (key : κ) (value : α) (rows : List (κ × α)) :
    (insert lt key value rows).lookup key = some value := by
  fun_induction insert lt key value rows with
  | case1 => exact List.lookup_cons_self
  | case2 => exact List.lookup_cons_self
  | case3 k v rest _ h ih =>
      rw [List.lookup_cons, beq_false_of_ne (ne_of_lt hlt h).symm]
      exact ih
  | case4 => exact List.lookup_cons_self

theorem lookup_insert_of_ne (hlt : IsOrder lt) {key k : κ} (h : k ≠ key) (value : α)
    (rows : List (κ × α)) : (insert lt key value rows).lookup k = rows.lookup k := by
  fun_induction insert lt key value rows with
  | case1 => rw [List.lookup_cons, beq_false_of_ne h]
  | case2 => rw [List.lookup_cons, beq_false_of_ne h]
  | case3 _ _ _ _ _ ih => rw [List.lookup_cons, List.lookup_cons, ih]
  | case4 other _ _ h1 h2 =>
      have heq := hlt.connected _ _ (Bool.not_eq_true _ ▸ h1) (Bool.not_eq_true _ ▸ h2)
      rw [List.lookup_cons, List.lookup_cons, beq_false_of_ne h, ← heq, beq_false_of_ne h]

theorem mem_of_lookup {rows : List (κ × α)} {key : κ} {value : α}
    (h : rows.lookup key = some value) : (key, value) ∈ rows := by
  induction rows with
  | nil => cases h
  | cons row rest ih =>
      obtain ⟨k, v⟩ := row
      rw [List.lookup_cons] at h
      split at h
      · next hk =>
        cases h
        rw [beq_iff_eq.1 hk]
        exact List.mem_cons_self
      · exact List.mem_cons_of_mem _ (ih h)

theorem lookup_of_mem (hlt : IsOrder lt) {rows : List (κ × α)} (hr : Ascending lt rows) {key : κ}
    {value : α} (h : (key, value) ∈ rows) : rows.lookup key = some value := by
  induction rows with
  | nil => cases h
  | cons row rest ih =>
      rw [Ascending, List.pairwise_cons] at hr
      rw [List.lookup_cons]
      rcases List.mem_cons.1 h with rfl | h
      · rw [beq_self_eq_true]
      · rw [beq_false_of_ne (ne_of_lt hlt (hr.1 _ h)).symm]
        exact ih hr.2 h

/-- In ascending rows the row of a key is the one that is found under it. -/
theorem mem_iff_lookup (hlt : IsOrder lt) {rows : List (κ × α)} (hr : Ascending lt rows) {key : κ}
    {value : α} : (key, value) ∈ rows ↔ rows.lookup key = some value :=
  ⟨lookup_of_mem hlt hr, mem_of_lookup⟩

/-- Rows that are chosen by a test of their keys. -/
theorem lookup_filter (test : κ → Bool) (rows : List (κ × α)) (key : κ) :
    (rows.filter fun row => test row.1).lookup key =
      if test key = true then rows.lookup key else none := by
  induction rows with
  | nil => rw [List.filter_nil, List.lookup_nil, ite_self]
  | cons row rest ih =>
      obtain ⟨k, v⟩ := row
      by_cases hkey : key = k
      · subst hkey
        by_cases htest : test key = true
        · rw [List.filter_cons, if_pos htest, if_pos htest, List.lookup_cons_self,
            List.lookup_cons_self]
        · rw [List.filter_cons, if_neg htest, ih, if_neg htest, if_neg htest]
      · rw [List.lookup_cons, beq_false_of_ne hkey, ← ih]
        by_cases htest : test k = true
        · rw [List.filter_cons, if_pos htest, List.lookup_cons, beq_false_of_ne hkey]
        · rw [List.filter_cons, if_neg htest]

/-- To put a row where it is changes nothing. -/
theorem insert_of_lookup (hlt : IsOrder lt) {key : κ} {value : α} {rows : List (κ × α)}
    (h : Ascending lt rows) (hkey : rows.lookup key = some value) :
    insert lt key value rows = rows := by
  fun_induction insert lt key value rows with
  | case1 => cases hkey
  | case2 k v rest hk =>
      -- the first key is beyond the one that is sought, and so are all others
      have hbeyond : lt key key = true := by
        rcases List.mem_cons.1 (mem_of_lookup hkey) with heq | hrest
        · rw [← (Prod.mk.inj heq).1] at hk
          exact hk
        · exact hlt.trans _ _ _ hk ((List.pairwise_cons.1 h).1 _ hrest)
      rw [hlt.irrefl] at hbeyond
      cases hbeyond
  | case3 k v rest _ hk ih =>
      have hne := ne_of_lt hlt hk
      rw [List.lookup_cons, beq_false_of_ne hne.symm] at hkey
      rw [ih (List.pairwise_cons.1 h).2 hkey]
  | case4 k v rest h1 h2 =>
      have heq := hlt.connected _ _ (Bool.not_eq_true _ ▸ h1) (Bool.not_eq_true _ ▸ h2)
      rw [heq, List.lookup_cons_self] at hkey
      cases hkey
      rw [heq]

end Lookup

/-- Of two rows with one key that are put in one after the other the second stays. -/
theorem insert_insert (hlt : IsOrder lt) (key : κ) (value other : α) (rows : List (κ × α)) :
    insert lt key value (insert lt key other rows) = insert lt key value rows := by
  fun_induction insert lt key other rows with
  | case1 => simp [insert, hlt.irrefl]
  | case2 k v rest h => simp [insert, hlt.irrefl, h]
  | case3 k v rest h1 h2 ih => rw [insert, insert, if_neg h1, if_pos h2, ih, if_neg h1, if_pos h2]
  | case4 k v rest h1 h2 => simp [insert, hlt.irrefl, h1, h2]

theorem mem_insert_of_mem {key : κ} {value : α} {rows : List (κ × α)} {row : κ × α}
    (h : row ∈ insert lt key value rows) : row = (key, value) ∨ row ∈ rows := by
  fun_induction insert lt key value rows with
  | case1 => exact .inl (List.mem_singleton.1 h)
  | case2 => exact List.mem_cons.1 h
  | case3 k v rest _ _ ih =>
      rcases List.mem_cons.1 h with rfl | h
      · exact .inr List.mem_cons_self
      · exact (ih h).imp_right (List.mem_cons_of_mem _)
  | case4 => exact (List.mem_cons.1 h).imp_right (List.mem_cons_of_mem _)

theorem ascending_insert (hlt : IsOrder lt) (key : κ) (value : α) {rows : List (κ × α)}
    (h : Ascending lt rows) : Ascending lt (insert lt key value rows) := by
  fun_induction insert lt key value rows with
  | case1 => exact List.pairwise_singleton _ _
  | case2 k v rest hk =>
      refine List.pairwise_cons.2 ⟨fun row hrow => ?_, h⟩
      rcases List.mem_cons.1 hrow with rfl | hrow
      · exact hk
      · exact hlt.trans _ _ _ hk ((List.pairwise_cons.1 h).1 row hrow)
  | case3 k v rest _ hk ih =>
      rw [Ascending, List.pairwise_cons] at h
      refine List.pairwise_cons.2 ⟨fun row hrow => ?_, ih h.2⟩
      rcases mem_insert_of_mem hrow with rfl | hrow
      · exact hk
      · exact h.1 row hrow
  | case4 k v rest h1 h2 =>
      have heq := hlt.connected _ _ (Bool.not_eq_true _ ▸ h1) (Bool.not_eq_true _ ▸ h2)
      rw [Ascending, List.pairwise_cons] at h ⊢
      rw [heq]
      exact h

/-- Where a key is there already, a row for it leaves the keys as they are. -/
theorem keys_insert_of_mem (hlt : IsOrder lt) {key : κ} (value : α) {rows : List (κ × α)}
    (h : Ascending lt rows) (hkey : key ∈ rows.map Prod.fst) :
    (insert lt key value rows).map Prod.fst = rows.map Prod.fst := by
  fun_induction insert lt key value rows with
  | case1 => cases hkey
  | case2 k v rest hk =>
      -- the first key is beyond the one that is sought, and so are all others
      obtain ⟨row, hrow, hkey⟩ := List.mem_map.1 hkey
      have hbeyond : lt key row.1 = true := by
        rcases List.mem_cons.1 hrow with rfl | hrow
        · exact hk
        · exact hlt.trans _ _ _ hk ((List.pairwise_cons.1 h).1 row hrow)
      exact absurd hkey.symm (ne_of_lt hlt hbeyond)
  | case3 k v rest _ hk ih =>
      have hrest := (List.mem_cons.1 hkey).resolve_left (ne_of_lt hlt hk).symm
      rw [List.map_cons, List.map_cons, ih (List.pairwise_cons.1 h).2 hrest]
  | case4 k v rest h1 h2 =>
      have heq := hlt.connected _ _ (Bool.not_eq_true _ ▸ h1) (Bool.not_eq_true _ ▸ h2)
      rw [List.map_cons, List.map_cons, heq]

theorem mem_insertOnce (hlt : IsOrder lt) (x : κ) (rows : List κ) (y : κ) :
    y ∈ insertOnce lt x rows ↔ y = x ∨ y ∈ rows := by
  fun_induction insertOnce lt x rows with
  | case1 => rw [List.mem_singleton, or_iff_left List.not_mem_nil]
  | case2 => exact List.mem_cons
  | case3 _ _ _ _ ih => rw [List.mem_cons, List.mem_cons, ih, or_left_comm]
  | case4 z rest h1 h2 =>
      have heq := hlt.connected _ _ (Bool.not_eq_true _ ▸ h1) (Bool.not_eq_true _ ▸ h2)
      rw [List.mem_cons, heq, ← or_assoc, or_self]

theorem pairwise_insertOnce (hlt : IsOrder lt) (x : κ) {rows : List κ}
    (h : rows.Pairwise fun a b => lt a b = true) :
    (insertOnce lt x rows).Pairwise fun a b => lt a b = true := by
  fun_induction insertOnce lt x rows with
  | case1 => exact List.pairwise_singleton _ _
  | case2 y rest hy =>
      refine List.pairwise_cons.2 ⟨fun z hz => ?_, h⟩
      rcases List.mem_cons.1 hz with rfl | hz
      · exact hy
      · exact hlt.trans _ _ _ hy ((List.pairwise_cons.1 h).1 z hz)
  | case3 y rest _ hy ih =>
      rw [List.pairwise_cons] at h
      refine List.pairwise_cons.2 ⟨fun z hz => ?_, ih h.2⟩
      rcases (mem_insertOnce hlt _ _ _).1 hz with rfl | hz
      · exact hy
      · exact h.1 z hz
  | case4 => exact h

/-- Rows in ascending order are told by what is among them. -/
theorem eq_of_mem_iff (hlt : IsOrder lt) {xs ys : List κ} (hxs : xs.Pairwise fun a b => lt a b = true)
    (hys : ys.Pairwise fun a b => lt a b = true) (h : ∀ a, a ∈ xs ↔ a ∈ ys) : xs = ys := by
  have : Std.Antisymm fun a b => lt a b = true :=
    ⟨fun a b hab hba => absurd (hlt.trans a b a hab hba) (by simp [hlt.irrefl])⟩
  have : Std.Irrefl fun a b => lt a b = true := ⟨fun a => by simp [hlt.irrefl]⟩
  exact hxs.eq_of_mem_iff hys h

end OrderedRows

/-! ### The orders of keys, entries and names -/

theorem Bytes.isOrder : IsOrder Bytes.lt where
  irrefl a := by
    rw [← Bool.not_eq_true, Bytes.lt_eq_true_iff, Std.compare_self]
    exact nofun
  trans a b c hab hbc := by
    rw [Bytes.lt_eq_true_iff] at *
    exact Std.TransCmp.lt_trans hab hbc
  connected a b hab hba := by
    rw [← Bool.not_eq_true, Bytes.lt_eq_true_iff] at hab hba
    rw [Std.OrientedCmp.gt_iff_lt.symm] at hba
    cases h : Ord.compare a b with
    | lt => exact absurd h hab
    | eq => exact Std.LawfulEqOrd.compare_eq_iff_eq.1 h
    | gt => exact absurd h hba

theorem Entry.lt_iff {a b : Entry} :
    Entry.lt a b = true ↔ Bytes.lt a.1 b.1 = true ∨ a.1 = b.1 ∧ Bytes.lt a.2 b.2 = true := by
  rw [Entry.lt, Bool.or_eq_true, Bool.and_eq_true, beq_iff_eq]

theorem Entry.isOrder : IsOrder Entry.lt where
  irrefl a := by
    rw [Entry.lt, Bytes.isOrder.irrefl, Bytes.isOrder.irrefl, Bool.and_false, Bool.or_false]
  trans a b c hab hbc := by
    rw [Entry.lt_iff] at *
    rcases hab with hab | ⟨hab, hab'⟩
    · rcases hbc with hbc | ⟨hbc, _⟩
      · exact .inl (Bytes.isOrder.trans _ _ _ hab hbc)
      · exact .inl (hbc ▸ hab)
    · rcases hbc with hbc | ⟨hbc, hbc'⟩
      · exact .inl (hab ▸ hbc)
      · exact .inr ⟨hab.trans hbc, Bytes.isOrder.trans _ _ _ hab' hbc'⟩
  connected a b hab hba := by
    rw [← Bool.not_eq_true, Entry.lt_iff, not_or, not_and] at hab hba
    have h1 := Bytes.isOrder.connected _ _ (Bool.not_eq_true _ ▸ hab.1) (Bool.not_eq_true _ ▸ hba.1)
    have h2 := Bytes.isOrder.connected _ _ (Bool.not_eq_true _ ▸ hab.2 h1)
      (Bool.not_eq_true _ ▸ hba.2 h1.symm)
    exact Prod.ext h1 h2

theorem isOrder_name : IsOrder fun a b : String => decide (a < b) where
  irrefl a := decide_eq_false (String.lt_irrefl a)
  trans a b c hab hbc := by
    rw [decide_eq_true_iff] at *
    exact String.lt_trans hab hbc
  connected a b hab hba := by
    rw [decide_eq_false_iff_not] at *
    exact String.le_antisymm (String.not_lt.1 hba) (String.not_lt.1 hab)

end RecordStore
