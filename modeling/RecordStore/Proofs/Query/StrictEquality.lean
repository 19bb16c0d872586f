import RecordStore.Proofs.Document.Injection
import RecordStore.Proofs.Document.Returns
import RecordStore.Query.Basic

/-!
What strict equality tells apart. Two values that can be stored are loosely equal exactly when they have
the same shape and hold things of one loose kind at each position, equal ones where there is nothing below;
loosely, truth values are numbers. Strict equality asks for one kind at the top only, so below the top a
truth value may still meet the number that it counts as, and that is all that may differ.
-/

namespace RecordStore

open Document

namespace Value

/-! ### Positions -/

/-- A place in a list, a tuple or a mapping. -/
inductive Place where
  | item (i : Nat)
  | member (name : String)

/-- What is in a place of a value. -/
def part? : Place → Value → Option Value
  | .item i, list items => items[i]?
  | .item i, tuple items => items[i]?
  | .member name, dict members => member? name members
  | _, _ => none

/-- What is at a position of a value: the places that lead to it, from the top down. -/
def at? : List Place → Value → Option Value
  | [], v => some v
  | p :: path, v => (v.part? p).bind (at? path)

/-- A value without places. The elements of a set are in none. -/
def IsLeaf : Value → Prop
  | list _ | tuple _ | dict _ => False
  | _ => True

/-- The kinds that loose equality tells apart. -/
def looseKind (v : Value) : Kind :=
  match v.strictKind with
  | .bool => .float
  | k => k

/-- Two values of one loose kind, which are equal if nothing is below them. -/
def Agrees (v w : Value) : Prop := v.looseKind = w.looseKind ∧ (v.IsLeaf → v.equals w = true)

/-- Two values have the same positions and agree at each. -/
def AgreesThroughout (v w : Value) : Prop := ∀ path, Option.Rel Agrees (v.at? path) (w.at? path)

/-- Two values have the same positions and things of one kind at each. -/
def HasSameKinds (v w : Value) : Prop :=
  ∀ path, (v.at? path).map strictKind = (w.at? path).map strictKind

/-- A truth value counts as a number. -/
inductive CountsAs : Value → Value → Prop
  | int (b : Bool) : CountsAs (bool b) (int (if b then 1 else 0))
  | float {b : Bool} {x : Double} (h : x.equalsInt (if b then 1 else 0) = true) :
      CountsAs (bool b) (float x)

/-- At some position one of two values has a truth value and the other the number that it counts as. -/
def MixesTruth (v w : Value) : Prop :=
  ∃ path x y, v.at? path = some x ∧ w.at? path = some y ∧ (x.CountsAs y ∨ y.CountsAs x)

variable {v w : Value} {items others : List Value}

/-! ### Parts -/

/-- Two values agree throughout when they agree at the top and so do their parts, place by place. -/
theorem agreesThroughout_iff : v.AgreesThroughout w ↔
    v.Agrees w ∧ ∀ p, Option.Rel AgreesThroughout (v.part? p) (w.part? p) := by
  constructor
  · intro h
    refine ⟨?_, fun p => ?_⟩
    · cases h [] with
      | some htop => exact htop
    · have hnil := h [p]
      cases hv : v.part? p with
      | none =>
          cases hw : w.part? p with
          | none => exact .none
          | some y => simp [at?, hv, hw] at hnil
      | some x =>
          cases hw : w.part? p with
          | none => simp [at?, hv, hw] at hnil
          | some y =>
              refine .some fun path => ?_
              simpa [at?, hv, hw] using h (p :: path)
  · rintro ⟨htop, hparts⟩ (_ | ⟨p, path⟩)
    · exact .some htop
    · show Option.Rel Agrees ((v.part? p).bind (at? path)) ((w.part? p).bind (at? path))
      have hp := hparts p
      generalize v.part? p = x, w.part? p = y at hp ⊢
      cases hp with
      | none => exact .none
      | some h => exact h path

theorem part?_of_isLeaf (h : v.IsLeaf) (p : Place) : v.part? p = none := by
  cases v with
  | list _ | tuple _ | dict _ => exact h.elim
  | _ => cases p <;> simp [part?]

theorem forall_item_rel_iff {R : Value → Value → Prop} :
    (∀ i : Nat, Option.Rel R items[i]? others[i]?) ↔ List.Forall₂ R items others := by
  induction items generalizing others with
  | nil =>
      cases others with
      | nil => simp
      | cons w rest =>
          refine ⟨fun h => ?_, nofun⟩
          simpa using h 0
  | cons v items ih =>
      cases others with
      | nil =>
          refine ⟨fun h => ?_, nofun⟩
          simpa using h 0
      | cons w others =>
          rw [List.forall₂_cons, ← ih]
          constructor
          · intro h
            exact ⟨by simpa using h 0, fun i => by simpa using h (i + 1)⟩
          · rintro ⟨hvw, h⟩ (_ | i)
            · exact .some hvw
            · simpa using h i

/-! ### Loose kinds -/

theorem looseKind_of_numeric? {n : Numeric} (h : v.numeric? = some n) : v.looseKind = .float := by
  cases v with
  | bool _ | int _ | float _ => rfl
  | _ => cases h

theorem looseKind_of_equals (h : v.equals w = true) : v.looseKind = w.looseKind := by
  rw [equals.eq_def] at h
  split at h
  all_goals try rfl
  rw [numericEquals] at h
  split at h
  · next hv hw => rw [looseKind_of_numeric? hv, looseKind_of_numeric? hw]
  · cases h

theorem exists_list_of_looseKind (h : w.looseKind = .list) : ∃ others, w = list others := by
  cases w with
  | list others => exact ⟨others, rfl⟩
  | descriptor d => cases d <;> cases h
  | _ => cases h

theorem exists_tuple_of_looseKind (h : w.looseKind = .tuple) : ∃ others, w = tuple others := by
  cases w with
  | tuple others => exact ⟨others, rfl⟩
  | descriptor d => cases d <;> cases h
  | _ => cases h

theorem exists_dict_of_looseKind (h : w.looseKind = .dict) : ∃ others, w = dict others := by
  cases w with
  | dict others => exact ⟨others, rfl⟩
  | descriptor d => cases d <;> cases h
  | _ => cases h

theorem IsLeaf.of_looseKind (hv : v.IsLeaf) (h : v.looseKind = w.looseKind) : w.IsLeaf := by
  cases w with
  | list _ =>
      obtain ⟨_, rfl⟩ := exists_list_of_looseKind h
      exact hv
  | tuple _ =>
      obtain ⟨_, rfl⟩ := exists_tuple_of_looseKind h
      exact hv
  | dict _ =>
      obtain ⟨_, rfl⟩ := exists_dict_of_looseKind h
      exact hv
  | _ => trivial

theorem equals_iff_of_isLeaf (hv : v.IsLeaf) : v.equals w = true ↔ v.AgreesThroughout w := by
  rw [agreesThroughout_iff]
  constructor
  · intro h
    have hkind := looseKind_of_equals h
    refine ⟨⟨hkind, fun _ => h⟩, fun p => ?_⟩
    rw [part?_of_isLeaf hv, part?_of_isLeaf (hv.of_looseKind hkind)]
    exact .none
  · intro h
    exact h.1.2 hv

/-! ### Members -/

/-- The names of members are texts, each of them once. -/
structure NamesOnce (members : List (Value × Value)) : Prop where
  text : ∀ m ∈ members, ∃ s, m.1 = .text s
  nodup : (members.map Prod.fst).Nodup

section Members

variable {members fields : List (Value × Value)} {name : String}

theorem member?_eq_some_iff (h : (members.map Prod.fst).Nodup) :
    member? name members = some v ↔ (.text name, v) ∈ members := by
  refine ⟨mem_of_member?, fun hmem => ?_⟩
  induction members with
  | nil => cases hmem
  | cons m rest ih =>
      obtain ⟨k, u⟩ := m
      rw [List.map_cons, List.nodup_cons] at h
      rcases List.mem_cons.1 hmem with heq | hmem
      · cases heq
        simp [member?]
      · have hname := List.mem_map_of_mem (f := Prod.fst) hmem
        have hne : k ≠ .text name := fun heq => h.1 (heq ▸ hname)
        have hrest : member? name ((k, u) :: rest) = member? name rest := by
          cases k with
          | text s => exact if_neg fun hs => hne (congrArg Value.text hs)
          | _ => rfl
        rw [hrest, ih h.2 hmem]

theorem text_equals_iff {s t : String} : (text s).equals (text t) = true ↔ s = t := by
  simp [equals]

theorem membersIn_iff : membersIn members fields = true ↔
    ∀ m ∈ members, ∃ f ∈ fields, m.1.equals f.1 = true ∧ m.2.equals f.2 = true := by
  induction members with
  | nil => simp [membersIn]
  | cons m rest ih =>
      obtain ⟨k, u⟩ := m
      rw [membersIn, Bool.and_eq_true, ih, List.forall_mem_cons]
      simp

theorem mem_names_iff (h : (members.map Prod.fst).Nodup) :
    .text name ∈ members.map Prod.fst ↔ ∃ v, member? name members = some v := by
  simp [member?_eq_some_iff h]

/-- Mappings that name each member once are alike, member by member, when they have as many and each of the
first has its counterpart in the second. -/
theorem forall_member_rel_iff {R : Value → Value → Prop} (hm : NamesOnce members) (hf : NamesOnce fields) :
    (∀ name, Option.Rel R (member? name members) (member? name fields)) ↔
      members.length = fields.length ∧
        ∀ m ∈ members, ∃ f ∈ fields, m.1.equals f.1 = true ∧ R m.2 f.2 := by
  constructor
  · intro h
    have hnames : (members.map Prod.fst).Perm (fields.map Prod.fst) := by
      refine (List.perm_ext_iff_of_nodup hm.nodup hf.nodup).2 fun k => ?_
      by_cases hk : ∃ s, k = .text s
      · obtain ⟨s, rfl⟩ := hk
        rw [mem_names_iff hm.nodup, mem_names_iff hf.nodup]
        have hs := h s
        generalize member? s members = x, member? s fields = y at hs ⊢
        cases hs <;> simp
      · refine iff_of_false (fun hmem => hk ?_) (fun hmem => hk ?_)
        · obtain ⟨m, hmem, rfl⟩ := List.mem_map.1 hmem
          exact hm.text m ‹_›
        · obtain ⟨f, hmem, rfl⟩ := List.mem_map.1 hmem
          exact hf.text f ‹_›
    refine ⟨by simpa using hnames.length_eq, ?_⟩
    rintro ⟨k, u⟩ hmem
    obtain ⟨s, rfl⟩ := hm.text _ hmem
    have hs := h s
    rw [(member?_eq_some_iff hm.nodup).2 hmem] at hs
    generalize hx : member? s fields = x at hs
    cases hs with
    | some hR => exact ⟨_, mem_of_member? hx, text_equals_iff.2 rfl, hR⟩
  · rintro ⟨hlength, h⟩ name
    have hcounterpart {s : String} {u : Value} (hu : member? s members = some u) :
        ∃ u', member? s fields = some u' ∧ R u u' := by
      obtain ⟨⟨k, u'⟩, hmem, hk, hR⟩ := h _ (mem_of_member? hu)
      obtain ⟨t, rfl⟩ := hf.text _ hmem
      obtain rfl := text_equals_iff.1 hk
      exact ⟨u', (member?_eq_some_iff hf.nodup).2 hmem, hR⟩
    have hsub : members.map Prod.fst ⊆ fields.map Prod.fst := by
      intro k hk
      obtain ⟨⟨_, u⟩, hmem, rfl⟩ := List.mem_map.1 hk
      obtain ⟨s, rfl⟩ := hm.text _ hmem
      obtain ⟨u', hu', _⟩ := hcounterpart ((member?_eq_some_iff hm.nodup).2 hmem)
      exact (mem_names_iff hf.nodup).2 ⟨u', hu'⟩
    have hnames : (members.map Prod.fst).Perm (fields.map Prod.fst) :=
      (List.subperm_of_subset hm.nodup hsub).perm_of_length_le (by simp [hlength])
    cases hx : member? name members with
    | some u =>
        obtain ⟨u', hu', hR⟩ := hcounterpart hx
        exact hu' ▸ .some hR
    | none =>
        cases hy : member? name fields with
        | none => exact .none
        | some u' =>
            obtain ⟨u, hu⟩ := (mem_names_iff hm.nodup).1
              (hnames.mem_iff.2 ((mem_names_iff hf.nodup).2 ⟨u', hy⟩))
            rw [hx] at hu
            cases hu

end Members

/-! ### Storable values -/

/-- Mappings name each member once and by a text, wherever lists, tuples and mappings lead to one. -/
inductive NamesPlainly : Value → Prop
  | leaf {v : Value} : v.IsLeaf → NamesPlainly v
  | list {items : List Value} : (∀ v ∈ items, NamesPlainly v) → NamesPlainly (list items)
  | tuple {items : List Value} : (∀ v ∈ items, NamesPlainly v) → NamesPlainly (tuple items)
  | dict {members : List (Value × Value)} : NamesOnce members → (∀ m ∈ members, NamesPlainly m.2) →
      NamesPlainly (dict members)

theorem forall₂_congr_of_mem {R S : Value → Value → Prop}
    (h : ∀ v ∈ items, ∀ w ∈ others, (R v w ↔ S v w)) :
    List.Forall₂ R items others ↔ List.Forall₂ S items others := by
  induction items generalizing others with
  | nil => simp
  | cons v items ih =>
      cases others with
      | nil => simp
      | cons w others =>
          rw [List.forall₂_cons, List.forall₂_cons, h v (by simp) w (by simp),
            ih fun v hv w hw => h v (by simp [hv]) w (by simp [hw])]

theorem allEqual_iff :
    allEqual items others = true ↔ List.Forall₂ (fun v w => v.equals w = true) items others := by
  induction items generalizing others with
  | nil => cases others <;> simp [allEqual]
  | cons v items ih =>
      cases others with
      | nil => simp [allEqual]
      | cons w others => rw [allEqual, Bool.and_eq_true, List.forall₂_cons, ih]

theorem agreesThroughout_items_iff {sequence : List Value → Value}
    (hsequence : sequence = list ∨ sequence = tuple) :
    (sequence items).AgreesThroughout (sequence others) ↔
      List.Forall₂ AgreesThroughout items others := by
  rw [agreesThroughout_iff, ← forall_item_rel_iff]
  rcases hsequence with rfl | rfl
  all_goals
    constructor
    · intro h i
      exact h.2 (.item i)
    · intro h
      refine ⟨⟨rfl, fun hleaf => hleaf.elim⟩, ?_⟩
      rintro (i | name)
      · exact h i
      · exact .none

theorem agreesThroughout_dict_iff {members fields : List (Value × Value)} :
    (dict members).AgreesThroughout (dict fields) ↔
      ∀ name, Option.Rel AgreesThroughout (member? name members) (member? name fields) := by
  rw [agreesThroughout_iff]
  constructor
  · intro h name
    exact h.2 (.member name)
  · intro h
    refine ⟨⟨rfl, fun hleaf => hleaf.elim⟩, ?_⟩
    rintro (i | name)
    · exact .none
    · exact h name

theorem AgreesThroughout.looseKind (h : v.AgreesThroughout w) : v.looseKind = w.looseKind :=
  (agreesThroughout_iff.1 h).1.1

theorem looseKind_of_iff (h : v.looseKind = w.looseKind → (v.equals w = true ↔ v.AgreesThroughout w)) :
    v.equals w = true ↔ v.AgreesThroughout w :=
  ⟨fun hequals => (h (looseKind_of_equals hequals)).1 hequals,
    fun hagrees => (h hagrees.looseKind).2 hagrees⟩

/-- Values are equal exactly when they agree throughout. -/
theorem equals_iff_agreesThroughout (hv : v.NamesPlainly) (hw : w.NamesPlainly) :
    v.equals w = true ↔ v.AgreesThroughout w := by
  induction hv generalizing w with
  | leaf hleaf => exact equals_iff_of_isLeaf hleaf
  | @list items hitems ih =>
      refine looseKind_of_iff fun hkind => ?_
      obtain ⟨others, rfl⟩ := exists_list_of_looseKind hkind.symm
      rw [agreesThroughout_items_iff (.inl rfl), equals, allEqual_iff]
      cases hw with
      | leaf hleaf => exact hleaf.elim
      | list hothers => exact forall₂_congr_of_mem fun v hv w hw => ih v hv (hothers w hw)
  | @tuple items hitems ih =>
      refine looseKind_of_iff fun hkind => ?_
      obtain ⟨others, rfl⟩ := exists_tuple_of_looseKind hkind.symm
      rw [agreesThroughout_items_iff (.inr rfl), equals, allEqual_iff]
      cases hw with
      | leaf hleaf => exact hleaf.elim
      | tuple hothers => exact forall₂_congr_of_mem fun v hv w hw => ih v hv (hothers w hw)
  | @dict members hnames hmembers ih =>
      refine looseKind_of_iff fun hkind => ?_
      obtain ⟨fields, rfl⟩ := exists_dict_of_looseKind hkind.symm
      cases hw with
      | leaf hleaf => exact hleaf.elim
      | dict hnames' hfields =>
          rw [agreesThroughout_dict_iff, forall_member_rel_iff hnames hnames', equals, Bool.and_eq_true,
            beq_iff_eq, membersIn_iff]
          refine and_congr_right fun _ => forall₂_congr fun m hm => exists_congr fun f => ?_
          exact and_congr_right fun hf => and_congr_right fun _ => ih m hm (hfields f hf)

/-! ### Kinds -/

theorem CountsAs.strictKind_ne (h : v.CountsAs w) : v.strictKind ≠ w.strictKind := by
  cases h <;> simp [strictKind, kind]

theorem looseKind_eq (v : Value) :
    v.looseKind = if v.strictKind = .bool then .float else v.strictKind := by
  rw [looseKind]
  split <;> simp_all

theorem exists_bool_of_strictKind (h : v.strictKind = .bool) : ∃ b, v = bool b := by
  cases v with
  | bool b => exact ⟨b, rfl⟩
  | descriptor d => cases d <;> cases h
  | _ => cases h

theorem isNumber_of_strictKind (h : v.strictKind = .float) : (∃ n, v = int n) ∨ ∃ x, v = float x := by
  cases v with
  | int n => exact .inl ⟨n, rfl⟩
  | float x => exact .inr ⟨x, rfl⟩
  | descriptor d => cases d <;> cases h
  | _ => cases h

/-- Equal values of different kinds are a truth value and the number that it counts as. -/
theorem countsAs_of_equals (h : v.equals w = true) (hne : v.strictKind ≠ w.strictKind) :
    v.CountsAs w ∨ w.CountsAs v := by
  have hkind := looseKind_of_equals h
  rw [looseKind_eq, looseKind_eq] at hkind
  by_cases hv : v.strictKind = .bool
  · have hw : w.strictKind = .float := by
      rw [if_pos hv, if_neg fun hw => hne (hv.trans hw.symm)] at hkind
      exact hkind.symm
    obtain ⟨b, rfl⟩ := exists_bool_of_strictKind hv
    rcases isNumber_of_strictKind hw with ⟨n, rfl⟩ | ⟨x, rfl⟩
    · obtain rfl : (if b then 1 else 0) = n := beq_iff_eq.1 h
      exact .inl (.int b)
    · exact .inl (.float h)
  · have hw : w.strictKind = .bool := by
      by_contra hw
      rw [if_neg hv, if_neg hw] at hkind
      exact hne hkind
    rw [if_neg hv, if_pos hw] at hkind
    obtain ⟨b, rfl⟩ := exists_bool_of_strictKind hw
    rcases isNumber_of_strictKind hkind with ⟨n, rfl⟩ | ⟨x, rfl⟩
    · obtain rfl : n = if b then 1 else 0 := beq_iff_eq.1 h
      exact .inr (.int b)
    · exact .inr (.float h)

theorem isLeaf_of_strictKind_ne (h : v.looseKind = w.looseKind) (hne : v.strictKind ≠ w.strictKind) :
    v.IsLeaf := by
  cases v with
  | list _ =>
      obtain ⟨_, rfl⟩ := exists_list_of_looseKind h.symm
      exact hne rfl
  | tuple _ =>
      obtain ⟨_, rfl⟩ := exists_tuple_of_looseKind h.symm
      exact hne rfl
  | dict _ =>
      obtain ⟨_, rfl⟩ := exists_dict_of_looseKind h.symm
      exact hne rfl
  | _ => trivial

/-- Values that agree throughout have things of one kind at each position, or a truth value at one where
the other has a number. -/
theorem AgreesThroughout.hasSameKinds_iff (h : v.AgreesThroughout w) :
    v.HasSameKinds w ↔ ¬v.MixesTruth w := by
  constructor
  · rintro hsame ⟨path, x, y, hx, hy, hxy⟩
    have hkind := hsame path
    rw [hx, hy] at hkind
    simp only [Option.map_some, Option.some.injEq] at hkind
    rcases hxy with hxy | hyx
    · exact hxy.strictKind_ne hkind
    · exact hyx.strictKind_ne hkind.symm
  · intro hmix path
    have hpath := h path
    generalize hx : v.at? path = x, hy : w.at? path = y at hpath
    cases hpath with
    | none => rfl
    | @some x y hxy =>
        by_contra hne
        have hne' : x.strictKind ≠ y.strictKind := fun heq => hne (congrArg some heq)
        have hequals := hxy.2 (isLeaf_of_strictKind_ne hxy.1 hne')
        exact hmix ⟨path, x, y, hx, hy, countsAs_of_equals hequals hne'⟩

end Value

/-! ### Storable values -/

namespace Document

open Value (IsProper AllProper MembersProper NamesPlainly NamesOnce)

mutual

theorem namesPlainly_of_checkNames : ∀ {v : Value}, v.IsProper → checkNames v = .ok () → v.NamesPlainly
  | .list items, hp, hn => .list (namesPlainly_of_checkItems hp hn)
  | .tuple items, hp, hn => .tuple (namesPlainly_of_checkItems hp hn)
  | .dict members, hp, hn => by
    obtain ⟨hnames, hmembers⟩ := namesPlainly_of_checkMembers hp hn
    exact .dict hnames hmembers
  | .null, _, _ | .bool _, _, _ | .int _, _, _ | .float _, _, _ | .text _, _, _ | .bytes _, _, _
  | .date _, _, _ | .set _, _, _ | .ellipsis, _, _ | .descriptor _, _, _ | .keyRange _, _, _
  | .bare _, _, _ | .keyed _ _, _, _ | .callable _, _, _ => .leaf trivial

theorem namesPlainly_of_checkItems : ∀ {items : List Value}, AllProper items →
    checkItems items = .ok () → ∀ v ∈ items, v.NamesPlainly
  | [], _, _ => nofun
  | v :: rest, hp, hn => by
    obtain ⟨_, hv, hrest⟩ := bind_eq_ok_iff.1 hn
    exact List.forall_mem_cons.2
      ⟨namesPlainly_of_checkNames hp.1 hv, namesPlainly_of_checkItems hp.2 hrest⟩

theorem namesPlainly_of_checkMembers : ∀ {members : List (Value × Value)}, MembersProper members →
    checkMembers members = .ok () → NamesOnce members ∧ ∀ m ∈ members, m.2.NamesPlainly
  | [], _, _ => ⟨⟨nofun, List.nodup_nil⟩, nofun⟩
  | (.text s, v) :: rest, hp, hn => by
    obtain ⟨_, hv, hrest⟩ := bind_eq_ok_iff.1 hn
    obtain ⟨hnames, hmembers⟩ := namesPlainly_of_checkMembers hp.2.2 hrest
    refine ⟨⟨?_, ?_⟩, List.forall_mem_cons.2 ⟨namesPlainly_of_checkNames hp.1 hv, hmembers⟩⟩
    · exact List.forall_mem_cons.2 ⟨⟨s, rfl⟩, hnames.text⟩
    · refine List.nodup_cons.2 ⟨fun hmem => ?_, hnames.nodup⟩
      obtain ⟨u, hu⟩ := (Value.mem_names_iff hnames.nodup).1 hmem
      rw [hp.2.1 s rfl] at hu
      cases hu

end

end Document

namespace Value

variable {v w : Value}

theorem namesPlainly_of_dumps (hv : v.IsProper) (h : ∃ s, v.dumps = .ok s) : v.NamesPlainly := by
  obtain ⟨s, hs⟩ := h
  obtain ⟨d, hd, _⟩ := map_eq_ok_iff.1 hs
  obtain ⟨_, hn, _⟩ := bind_eq_ok_iff.1 hd
  exact namesPlainly_of_checkNames hv hn

/-- Values that can be stored are strictly equal when they are of one kind at the top and agree throughout:
they have the same positions, and equal things of one loose kind at each. So it is for a filter on a field
of a record. They then have things of one kind at each position, unless a truth value of one stands where
the other has the number that it counts as. -/
theorem strictEquals_hasSameKinds_iff (hv : v.IsProper) (hw : w.IsProper)
    (hvs : ∃ s, v.dumps = .ok s) (hws : ∃ s, w.dumps = .ok s) :
    (v.strictEquals w = true ↔ v.strictKind = w.strictKind ∧ v.AgreesThroughout w) ∧
    (∀ name record, record.field? name = some v →
      (Filter.fieldMatches name w record = true ↔ v.strictKind = w.strictKind ∧ v.AgreesThroughout w)) ∧
    (v.strictEquals w = true → (v.HasSameKinds w ↔ ¬v.MixesTruth w)) := by
  have hequals := equals_iff_agreesThroughout (namesPlainly_of_dumps hv hvs) (namesPlainly_of_dumps hw hws)
  have hstrict : v.strictEquals w = true ↔ v.strictKind = w.strictKind ∧ v.AgreesThroughout w := by
    rw [strictEquals, Bool.and_eq_true, beq_iff_eq, hequals]
  refine ⟨hstrict, fun name record hfield => ?_, fun h => (hstrict.1 h).2.hasSameKinds_iff⟩
  rw [Filter.fieldMatches, hfield]
  exact hstrict

/-- The flag of a record, in a list. -/
def flags : Value := .list [.bool true]

/-- A count, in a list. -/
def counts : Value := .list [.int 1]

theorem exists_dumps_flags : ∃ s, flags.dumps = .ok s := exists_dumps_of_encode rfl

theorem exists_dumps_counts : ∃ s, counts.dumps = .ok s := by
  have hdigits : ¬maxDigits < (Decimal.digitsOf (Int.natAbs 1)).length := by decide
  refine exists_dumps_of_encode (d := .list [.int 1]) ?_
  rw [counts, encode, encodeItems, encode, if_neg hdigits]
  rfl

/-- A filter for the count matches a record with the flag, of which the item is of another kind. -/
theorem strictEquals_hasSameKinds_iff_flags :
    Filter.fieldMatches "seen" counts (.ofFields [("seen", flags)]) = true ∧
      flags.AgreesThroughout counts ∧ ¬flags.HasSameKinds counts := by
  have hproper : flags.IsProper ∧ counts.IsProper := ⟨⟨trivial, trivial⟩, ⟨trivial, trivial⟩⟩
  obtain ⟨hstrict, hfilter, hkinds⟩ :=
    strictEquals_hasSameKinds_iff hproper.1 hproper.2 exists_dumps_flags exists_dumps_counts
  have hequals : flags.strictEquals counts = true := by decide
  refine ⟨(hfilter "seen" _ rfl).2 (hstrict.1 hequals), (hstrict.1 hequals).2, ?_⟩
  rw [hkinds hequals, not_not]
  exact ⟨[.item 0], .bool true, .int 1, rfl, rfl, .inl (.int true)⟩

/-- Strict equality does not tell a truth value in a list from a number. -/
theorem not_strictEquals_hasSameKinds : ¬∀ v w : Value, v.IsProper → w.IsProper →
    (∃ s, v.dumps = .ok s) → (∃ s, w.dumps = .ok s) → v.strictEquals w = true → v.HasSameKinds w := by
  intro h
  have hsame := h flags counts ⟨trivial, trivial⟩ ⟨trivial, trivial⟩ exists_dumps_flags exists_dumps_counts
    (by decide)
  have hitem := hsame [.item 0]
  cases hitem

end Value
end RecordStore
