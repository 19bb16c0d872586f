import RecordStore.Proofs.Document.Returns
import RecordStore.Proofs.Query.Traversal

/-!
What a caller's functions and rules make of records. A function that is pure leaves the record alone, and
so does a filter of pure functions. A rule whose values have no name twice in a mapping makes records of
which the same is true.
-/

namespace RecordStore

/-! ### Mappings without a name twice -/

namespace Value

theorem isProper_of_member? {name : String} {v : Value} {members : List (Value × Value)}
    (hm : MembersProper members) (h : member? name members = some v) : v.IsProper := by
  induction members with
  | nil => cases h
  | cons m rest ih =>
      obtain ⟨k, w⟩ := m
      obtain ⟨hw, _, hrest⟩ := hm
      cases k with
      | text s =>
          rw [member?] at h
          split at h
          · cases h
            exact hw
          · exact ih hrest h
      | _ => exact ih hrest h

theorem membersProper_setMember {name : String} {v : Value} {members : List (Value × Value)}
    (hv : v.IsProper) (hm : MembersProper members) : MembersProper (setMember name v members) := by
  fun_induction setMember name v members with
  | case1 => exact ⟨hv, fun _ _ => rfl, trivial⟩
  | case2 => exact ⟨hv, hm.2.1, hm.2.2⟩
  | case3 s w rest hne ih =>
      refine ⟨hm.1, ?_, ih hm.2.2⟩
      rintro _ ⟨⟩
      rw [member?_setMember, if_neg (Ne.symm hne)]
      exact hm.2.1 s rfl
  | case4 m rest hne ih =>
      obtain ⟨k, w⟩ := m
      refine ⟨hm.1, ?_, ih hm.2.2⟩
      rintro s rfl
      exact absurd rfl (hne s w)

theorem membersProper_insertMember {key v : Value} {members : List (Value × Value)} (hv : v.IsProper)
    (hm : MembersProper members) : MembersProper (insertMember key v members) := by
  fun_induction insertMember key v members with
  | case1 => exact ⟨hv, fun _ _ => rfl, trivial⟩
  | case2 k w rest _ => exact ⟨hv, hm.2.1, hm.2.2⟩
  | case3 k w rest hne ih =>
      refine ⟨hm.1, ?_, ih hm.2.2⟩
      rintro s rfl
      rw [member?_insertMember_of_ne (Bool.not_eq_true _ ▸ hne)]
      exact hm.2.1 s rfl

end Value

/-! ### Functions -/

namespace Callable

/-- A function never changes the record that it is called on. -/
def IsPure (f : Callable Value) : Prop := ∀ r o s, f.call r = .ok (o, s) → s = r

mutual

/-- No mapping that is part of a function has a name twice. -/
def IsProper : Callable Value → Prop
  | constant v => v.IsProper
  | assign _ v => v.IsProper
  | list functions => AllProper functions
  | failIf condition _ _ otherwise => IsProper condition ∧ IsProper otherwise
  | _ => True

def AllProper : List (Callable Value) → Prop
  | [] => True
  | f :: rest => IsProper f ∧ AllProper rest

end

/-- Of a record without a name twice an outcome is a value without a name twice. -/
def YieldsProper (o : Outcome) : Prop := ∀ r : Value, r.IsProper → (o.resolve r).IsProper

theorem isProper_of_index {r v : Value} {field : String} (hr : r.IsProper)
    (h : index r field = .ok v) : v.IsProper := by
  cases r with
  | dict members =>
      rw [index] at h
      split at h
      · next hmember =>
        cases h
        exact Value.isProper_of_member? hr hmember
      · cases h
  | _ => cases h

theorem isProper_of_setField {r s v : Value} {field : String} (hr : r.IsProper) (hv : v.IsProper)
    (h : setField r field v = .ok s) : s.IsProper := by
  cases r with
  | dict members =>
      cases h
      exact Value.membersProper_setMember hv hr
  | _ => cases h

theorem isProper_field {r : Value} (hr : r.IsProper) (field : String) :
    ((r.field? field).getD .null).IsProper := by
  cases hfield : r.field? field with
  | none => trivial
  | some v =>
      cases r with
      | dict members => exact Value.isProper_of_member? hr hfield
      | _ => cases hfield

mutual

theorem isProper_of_call : ∀ {f : Callable Value} {r s : Value} {o : Outcome}, f.IsProper →
    r.IsProper → f.call r = .ok (o, s) → s.IsProper ∧ YieldsProper o
  | argument none, _, _, _, _, hr, h => by
    cases h
    exact ⟨hr, fun _ hfinal => hfinal⟩
  | argument (some field), _, _, _, _, hr, h => by
    obtain ⟨v, hv, h⟩ := map_eq_ok_iff.1 h
    cases h
    exact ⟨hr, fun _ _ => isProper_of_index hr hv⟩
  | constant v, _, _, _, hf, hr, h => by
    cases h
    exact ⟨hr, fun _ _ => hf⟩
  | get field, _, _, _, _, hr, h => by
    cases h
    exact ⟨hr, fun _ _ => isProper_field hr field⟩
  | has field, _, _, _, _, hr, h => by
    cases h
    exact ⟨hr, fun _ _ => trivial⟩
  | compare field relation bound, _, _, _, _, hr, h => by
    cases h
    exact ⟨hr, fun _ _ => trivial⟩
  | add field amount, r, _, _, _, hr, h => by
    cases h
    refine ⟨hr, fun _ _ => ?_⟩
    change (((number? r field).map fun n => Value.int (n + amount)).getD .null).IsProper
    cases number? r field <;> trivial
  | multiply field amount, r, _, _, _, hr, h => by
    cases h
    refine ⟨hr, fun _ _ => ?_⟩
    change (((number? r field).map fun n => Value.int (n * amount)).getD .null).IsProper
    cases number? r field <;> trivial
  | assign field v, _, _, _, hf, hr, h => by
    obtain ⟨s, hs, h⟩ := map_eq_ok_iff.1 h
    cases h
    exact ⟨isProper_of_setField hr hf hs, fun _ _ => trivial⟩
  | list functions, _, _, _, hf, hr, h => by
    obtain ⟨⟨items, s⟩, hitems, h⟩ := map_eq_ok_iff.1 h
    cases h
    obtain ⟨hs, hyields⟩ := allProper_of_callAll hf hr hitems
    exact ⟨hs, hyields⟩
  | failIf condition fault message otherwise, _, _, _, hf, hr, h => by
    rw [call] at h
    split at h
    · cases h
    · next hcondition =>
      obtain ⟨hs, _⟩ := isProper_of_call hf.1 hr hcondition
      split at h
      · cases h
      · exact isProper_of_call hf.2 hs h

theorem allProper_of_callAll : ∀ {functions : List (Callable Value)} {r s : Value}
    {items : List Outcome}, AllProper functions → r.IsProper → callAll functions r = .ok (items, s) →
      s.IsProper ∧ ∀ final : Value, final.IsProper → Value.AllProper (Outcome.resolveAll final items)
  | [], _, _, _, _, hr, h => by
    cases h
    exact ⟨hr, fun _ _ => trivial⟩
  | f :: rest, _, _, _, hf, hr, h => by
    rw [callAll] at h
    split at h
    · cases h
    · next hcall =>
      obtain ⟨hs, hyields⟩ := isProper_of_call hf.1 hr hcall
      obtain ⟨⟨items, t⟩, hitems, h⟩ := map_eq_ok_iff.1 h
      cases h
      obtain ⟨ht, hall⟩ := allProper_of_callAll hf.2 hs hitems
      exact ⟨ht, fun final hfinal => ⟨hyields final hfinal, hall final hfinal⟩⟩

end

end Callable

/-! ### Rules -/

namespace Rule

/-- No mapping that is part of a rule has a name twice. -/
def IsProper (rule : Rule) : Prop := ∀ a ∈ rule,
  match a.2 with
  | .callable f => f.IsProper
  | v => v.IsProper

theorem isProper_of_valueOf {a v r s : Value} (ha : match a with
    | .callable f => f.IsProper
    | v => v.IsProper) (hr : r.IsProper) (h : valueOf a r = .ok (v, s)) : v.IsProper ∧ s.IsProper := by
  cases a with
  | callable f =>
      obtain ⟨⟨o, t⟩, hcall, h⟩ := map_eq_ok_iff.1 h
      cases h
      obtain ⟨hs, hyields⟩ := Callable.isProper_of_call ha hr hcall
      exact ⟨hyields _ hs, hs⟩
  | _ =>
      cases h
      exact ⟨ha, hr⟩

theorem isProper_of_setAll {rule : Rule} {r m : Value} (hrule : rule.IsProper) (hr : r.IsProper)
    (h : setAll rule r = .ok m) : m.IsProper := by
  induction rule generalizing r with
  | nil =>
      cases h
      exact hr
  | cons a rest ih =>
      obtain ⟨name, a⟩ := a
      rw [setAll] at h
      split at h
      · cases h
      · next v members hvalue =>
        obtain ⟨hv, hs⟩ := isProper_of_valueOf (hrule _ List.mem_cons_self) hr hvalue
        have hset : (Value.dict (Value.insertMember name v members)).IsProper :=
          Value.membersProper_insertMember hv hs
        exact ih (fun b hb => hrule b (List.mem_cons_of_mem _ hb)) hset h
      · cases h

theorem isProper_of_apply {rule : Rule} {r m : Value} (hrule : rule.IsProper) (hr : r.IsProper)
    (h : rule.apply r = .ok m) : m.IsProper := by
  cases r with
  | dict members => exact isProper_of_setAll hrule hr h
  | _ => cases h

/-- A rule sets something only in mappings. -/
theorem exists_dict_of_apply {rule : Rule} {r m : Value} (h : rule.apply r = .ok m) :
    ∃ members, r = .dict members := by
  cases r with
  | dict members => exact ⟨members, rfl⟩
  | _ => cases h

end Rule

/-! ### Filters -/

/-- A filter never changes the record. -/
def Filter.IsPure (f : Filter) : Prop := ∀ r b s, f.holds r = .ok (b, s) → s = r

theorem Filter.isPure_field (name : String) (v : Value) : (Filter.field name v).IsPure := by
  intro r b s h
  cases h
  rfl

theorem Filter.isPure_predicate {f : Callable Value} (hf : f.IsPure) : (Filter.predicate f).IsPure := by
  intro r b s h
  obtain ⟨⟨o, t⟩, hcall, h⟩ := map_eq_ok_iff.1 h
  cases h
  exact hf r o _ hcall

/-- What pure filters tell of a record. -/
theorem Query.eq_of_allHold {q : Query} (hpure : ∀ f ∈ q.filters, f.IsPure) {v w : Value} {b : Bool}
    (h : Filter.allHold q.filters v = .ok (b, w)) : w = v ∧ b = q.accepts v := by
  have hall (fs : List Filter) (hfs : ∀ f ∈ fs, f.IsPure) (hfilters : Filter.allHold fs v = .ok (b, w)) :
      w = v ∧ b = fs.all (·.accepts v) := by
    induction fs with
    | nil =>
        cases hfilters
        exact ⟨rfl, rfl⟩
    | cons f rest ih =>
        rw [Filter.allHold] at hfilters
        rw [List.all_cons, Filter.accepts]
        split at hfilters
        · cases hfilters
        · next s hholds =>
          cases hfilters
          rw [hholds]
          exact ⟨hfs f List.mem_cons_self _ _ _ hholds, rfl⟩
        · next s hholds =>
          obtain rfl := hfs f List.mem_cons_self _ _ _ hholds
          rw [hholds]
          exact ih (fun g hg => hfs g (List.mem_cons_of_mem f hg)) hfilters
  exact hall q.filters hpure h

end RecordStore
