import RecordStore.Proofs.Document.Injection

/-!
Texts that are read as what their documents stand for, the fault included if a document stands for nothing.
The document of every value is legible so. The induction on reading is on documents, and looks at the first
part that stands for nothing: what was printed before it is read in full, and the rest is never looked at.
-/

namespace RecordStore

open Document

namespace Document

/-! ### Documents and their parts -/

section Parts

variable {ds : List Document} {ms : List (String × Document)} {items vs : List Value}
  {members : List (Value × Value)} {fields : List (String × Value)}

theorem exists_mem_of_forall₂ {α β : Type} {R : α → β → Prop} {as : List α} {bs : List β} {a : α}
    (h : List.Forall₂ R as bs) (ha : a ∈ as) : ∃ b ∈ bs, R a b := by
  induction h with
  | nil => cases ha
  | cons hab _ ih =>
      rcases List.mem_cons.1 ha with rfl | ha
      · exact ⟨_, List.mem_cons_self, hab⟩
      · obtain ⟨b, hb, hab⟩ := ih ha
        exact ⟨b, List.mem_cons_of_mem _ hb, hab⟩

theorem forall₂_of_encodeItems (h : encodeItems items = .ok ds) :
    List.Forall₂ (fun v d => encode v = .ok d) items ds := by
  induction items generalizing ds with
  | nil =>
      cases h
      exact .nil
  | cons v rest ih =>
      obtain ⟨d, hd, h⟩ := bind_eq_ok_iff.1 h
      obtain ⟨ds, hds, h⟩ := bind_eq_ok_iff.1 h
      cases h
      exact .cons hd (ih hds)

theorem forall₂_of_encodeMembers (h : encodeMembers members = .ok ms) :
    List.Forall₂ (fun m e => m.1 = .text e.1 ∧ encode m.2 = .ok e.2) members ms := by
  induction members generalizing ms with
  | nil =>
      cases h
      exact .nil
  | cons m rest ih =>
      obtain ⟨name, v⟩ := m
      cases name with
      | text s =>
          obtain ⟨d, hd, h⟩ := bind_eq_ok_iff.1 h
          obtain ⟨ds, hds, h⟩ := bind_eq_ok_iff.1 h
          cases h
          exact .cons ⟨rfl, hd⟩ (ih hds)
      | _ => cases h

theorem forall₂_of_values (h : values ds = .ok vs) : List.Forall₂ (fun d v => value d = .ok v) ds vs := by
  induction ds generalizing vs with
  | nil =>
      cases h
      exact .nil
  | cons d rest ih =>
      obtain ⟨v, hv, h⟩ := bind_eq_ok_iff.1 h
      obtain ⟨vs, hvs, h⟩ := bind_eq_ok_iff.1 h
      cases h
      exact .cons hv (ih hvs)

theorem forall₂_of_memberValues (h : memberValues ms = .ok fields) :
    List.Forall₂ (fun e f => e.1 = f.1 ∧ value e.2 = .ok f.2) ms fields := by
  induction ms generalizing fields with
  | nil =>
      cases h
      exact .nil
  | cons m rest ih =>
      obtain ⟨name, d⟩ := m
      obtain ⟨v, hv, h⟩ := bind_eq_ok_iff.1 h
      obtain ⟨vs, hvs, h⟩ := bind_eq_ok_iff.1 h
      cases h
      exact .cons ⟨rfl, hv⟩ (ih hvs)

theorem value_object_eq_ok_iff {w : Value} : value (.object ms) = .ok w ↔
    ∃ fields, memberValues ms = .ok fields ∧ close fields = .ok w := by
  rw [value]
  cases memberValues ms <;> simp

theorem mem_of_sequence {ε α : Type} {rs : List (Except ε α)} {as : List α} (h : sequence rs = .ok as)
    {a : α} (ha : a ∈ as) : .ok a ∈ rs := by
  induction rs generalizing as with
  | nil =>
      cases h
      cases ha
  | cons r rest ih =>
      obtain ⟨b, hb, h⟩ := bind_eq_ok_iff.1 h
      obtain ⟨bs, hbs, h⟩ := bind_eq_ok_iff.1 h
      cases h
      rcases List.mem_cons.1 ha with rfl | ha
      · exact List.mem_cons.2 (.inl hb.symm)
      · exact List.mem_cons_of_mem _ (ih hbs ha)

end Parts

namespace Reader

/-! ### The start of a document -/

/-- Every document starts like a value: with no blank, no end of a list or an object, and no mark. -/
theorem start_of_print (d : Document) (rest : List Char) :
    ∃ c more, print d ++ rest = c :: more ∧ isBlank c = false ∧ c ≠ ']' ∧ c ≠ '\x7d' ∧
      c ≠ '\ufeff' := by
  have hdigit (n : Nat) : ∃ c more, Decimal.digitsOf n ++ rest = c :: more ∧ isBlank c = false ∧
      c ≠ ']' ∧ c ≠ '\x7d' ∧ c ≠ '\ufeff' := by
    obtain ⟨c, cs, hc⟩ := List.exists_cons_of_ne_nil (Decimal.digitsOf_ne_nil n)
    have hisDigit : c.isDigit = true := Decimal.isDigit_of_mem_digitsOf (n := n) (hc ▸ List.mem_cons_self)
    refine ⟨c, cs ++ rest, by rw [hc, List.cons_append], ?_, ?_, ?_, ?_⟩
    · by_contra hblank
      have hblank : isBlank c = true := Bool.not_eq_false _ ▸ hblank
      simp only [isBlank, Bool.or_eq_true, beq_iff_eq, or_assoc] at hblank
      rcases hblank with rfl | rfl | rfl | rfl <;> cases hisDigit
    all_goals
      rintro rfl
      cases hisDigit
  cases d with
  | null => exact ⟨_, _, rfl, by decide⟩
  | bool b => cases b <;> exact ⟨_, _, rfl, by decide⟩
  | int n =>
      rw [print, printInt]
      split
      · exact ⟨_, _, rfl, by decide⟩
      · exact hdigit _
  | float x =>
      by_cases hx : x.isNaN = true → x = .nan
      · exact start_of_reads (reads_float hx) rest
      · rw [Classical.not_imp] at hx
        rw [print, printDouble, if_pos hx.1]
        exact ⟨_, _, rfl, by decide⟩
  | text s => exact ⟨_, _, rfl, by decide⟩
  | list items => cases items <;> exact ⟨_, _, rfl, by decide⟩
  | object members =>
      cases members with
      | nil => exact ⟨_, _, rfl, by decide⟩
      | cons m more => exact ⟨_, _, rfl, by decide⟩

theorem skipBlanks_print (d : Document) (rest : List Char) :
    skipBlanks (print d ++ rest) = print d ++ rest := by
  obtain ⟨c, more, hc, hblank, _⟩ := start_of_print d rest
  rw [hc, skipBlanks_cons hblank]

/-! ### Reading what was printed -/

/-- What is found in a text before the rest of it, or the fault of what is there. -/
def found {α : Type} (rest : List Char) : Except FormatFault α → Except ReadFault (α × List Char)
  | .ok a => .ok (a, rest)
  | .error f => .error (.format f)

/-- A document is legible if its text is read as what the document stands for, whatever follows it. -/
def IsLegible (d : Document) : Prop := ∀ fuel rest, 2 * (print d).length ≤ fuel → IsEnd rest →
  readValue fuel (print d ++ rest) = found rest (value d)

variable {d : Document} {ds : List Document} {ms : List (String × Document)}

theorem isLegible_of_reads {v : Value} (h : Reads v d) (hv : value d = .ok v) : IsLegible d := by
  intro fuel rest hfuel hrest
  rw [hv]
  exact h fuel rest hfuel hrest

/-- What a legible document stands for is what its text is read as. -/
theorem Reads.value_eq {v : Value} (h : Reads v d) (hd : IsLegible d) : value d = .ok v := by
  have hread := (hd _ [] le_rfl nofun).symm.trans (h _ [] le_rfl nofun)
  cases hv : value d with
  | ok w =>
      rw [hv] at hread
      cases hread
      rfl
  | error f =>
      rw [hv] at hread
      cases hread

theorem reads_of_value {v : Value} (hd : IsLegible d) (h : value d = .ok v) : Reads v d := by
  intro fuel rest hfuel hrest
  rw [hd fuel rest hfuel hrest, h]
  rfl

/-- The items of a list are read up to its end, or to the first that stands for nothing. -/
theorem readItems_of_isLegible (h : IsLegible d) (hs : ∀ e ∈ ds, IsLegible e) (fuel : Nat)
    (hfuel : 2 * ((print d).length + (printItems ds).length) ≤ fuel) (rest : List Char) :
    readItems fuel (print d ++ (printItems ds ++ rest)) = found rest (values (d :: ds)) := by
  induction ds generalizing d fuel with
  | nil =>
      simp only [printItems, List.length_singleton] at hfuel
      obtain ⟨fuel, rfl⟩ : ∃ n, fuel = n + 1 := ⟨fuel - 1, by omega⟩
      have hread := h fuel (']' :: rest) (by omega) (by simp [IsEnd])
      simp only [printItems, List.singleton_append, readItems, hread, values]
      cases value d with
      | error f => rfl
      | ok v => rfl
  | cons e es ih =>
      obtain ⟨he, hes⟩ := List.forall_mem_cons.1 hs
      simp only [printItems, List.length_append, List.length_cons] at hfuel
      obtain ⟨fuel, rfl⟩ : ∃ n, fuel = n + 1 := ⟨fuel - 1, by omega⟩
      have hread := h fuel (',' :: (print e ++ (printItems es ++ rest))) (by omega) (by simp [IsEnd])
      have hnext := ih he hes fuel (by omega)
      rw [printItems, List.cons_append, List.cons_append, List.append_assoc, readItems, hread, values]
      cases value d with
      | error f => rfl
      | ok v =>
          simp only [found, ok_bind, skipBlanks_cons (c := ',') rfl, skipBlanks_print, hnext]
          cases values (e :: es) with
          | error f => rfl
          | ok vs => rfl

theorem isLegible_list (hs : ∀ d ∈ ds, IsLegible d) : IsLegible (.list ds) := by
  cases ds with
  | nil => exact isLegible_of_reads (reads_list .nil) rfl
  | cons d ds =>
      obtain ⟨h, hs⟩ := List.forall_mem_cons.1 hs
      intro fuel rest hfuel _
      simp only [print, List.length_append, List.length_cons] at hfuel
      obtain ⟨fuel, rfl⟩ : ∃ n, fuel = n + 1 := ⟨fuel - 1, by omega⟩
      obtain ⟨c, more, hc, hblank, hend, _⟩ := start_of_print d (printItems ds ++ rest)
      have hread := readItems_of_isLegible h hs fuel (by omega) rest
      rw [print, List.append_assoc, List.cons_append, readValue, if_neg (by decide), if_neg (by decide),
        if_pos rfl, value]
      rw [hc] at hread ⊢
      rw [skipBlanks_cons hblank]
      split
      · next heq =>
        cases heq
        exact absurd rfl hend
      · rw [hread]
        cases values (d :: ds) with
        | error f => rfl
        | ok vs => rfl

/-- The members of an object are read up to its end, or to the first that stands for nothing. -/
theorem readMembers_of_isLegible (name : String) (h : IsLegible d) (hs : ∀ m ∈ ms, IsLegible m.2) (fuel : Nat)
    (hfuel : 2 * ((print d).length + (printMembers ms).length) ≤ fuel) (rest : List Char) :
    readMembers fuel (printString name ++ ':' :: (print d ++ (printMembers ms ++ rest))) =
      found rest (memberValues ((name, d) :: ms)) := by
  induction ms generalizing name d fuel with
  | nil =>
      simp only [printMembers, List.length_singleton] at hfuel
      obtain ⟨fuel, rfl⟩ : ∃ n, fuel = n + 1 := ⟨fuel - 1, by omega⟩
      have hread := h fuel ('\x7d' :: rest) (by omega) (by simp [IsEnd])
      rw [printString, List.append_assoc, List.cons_append, readMembers]
      simp only [List.singleton_append, readString_printString, ok_bind, skipBlanks_cons (c := ':') rfl,
        skipBlanks_print, printMembers, hread, memberValues]
      cases value d with
      | error f => rfl
      | ok v => rfl
  | cons m ms ih =>
      obtain ⟨other, e⟩ := m
      obtain ⟨he, hms⟩ := List.forall_mem_cons.1 hs
      change IsLegible e at he
      simp only [printMembers, List.length_append, List.length_cons] at hfuel
      obtain ⟨fuel, rfl⟩ : ∃ n, fuel = n + 1 := ⟨fuel - 1, by omega⟩
      have hmembers : printMembers ((other, e) :: ms) ++ rest =
          ',' :: (printString other ++ ':' :: (print e ++ (printMembers ms ++ rest))) := by
        simp [printMembers]
      have hskip (cs : List Char) : skipBlanks (printString other ++ cs) = printString other ++ cs := rfl
      have hread := h fuel (',' :: (printString other ++ ':' :: (print e ++ (printMembers ms ++ rest))))
        (by omega) (by simp [IsEnd])
      have hnext := ih other he hms fuel (by omega)
      rw [hmembers, printString, List.append_assoc, List.cons_append, readMembers]
      simp only [List.singleton_append, readString_printString, ok_bind, skipBlanks_cons (c := ':') rfl,
        skipBlanks_print, hread]
      rw [memberValues]
      cases value d with
      | error f => rfl
      | ok v =>
          simp only [found, ok_bind, skipBlanks_cons (c := ',') rfl, hskip, hnext]
          cases memberValues ((other, e) :: ms) with
          | error f => rfl
          | ok fields => rfl

theorem isLegible_object (hs : ∀ m ∈ ms, IsLegible m.2) : IsLegible (.object ms) := by
  cases ms with
  | nil => exact isLegible_of_reads (reads_of_close .nil rfl) rfl
  | cons m ms =>
      obtain ⟨name, d⟩ := m
      obtain ⟨h, hs⟩ := List.forall_mem_cons.1 hs
      change IsLegible d at h
      intro fuel rest hfuel _
      simp only [print, List.length_append, List.length_cons] at hfuel
      obtain ⟨fuel, rfl⟩ : ∃ n, fuel = n + 1 := ⟨fuel - 1, by omega⟩
      have hread := readMembers_of_isLegible name h hs fuel (by omega) rest
      have hprint : print (.object ((name, d) :: ms)) ++ rest =
          '\x7b' :: (printString name ++ ':' :: (print d ++ (printMembers ms ++ rest))) := by
        simp [print]
      have hskip (cs : List Char) : skipBlanks (printString name ++ cs) =
          '"' :: (name.toList.flatMap escapeChar ++ ['"'] ++ cs) := rfl
      rw [hprint, readValue, if_neg (by decide), if_pos rfl, hskip]
      change (readMembers fuel (printString name ++ _) >>= _) = _
      rw [hread, value]
      cases memberValues ((name, d) :: ms) with
      | error f => rfl
      | ok fields =>
          simp only [found, ok_bind]
          cases close fields with
          | error f => rfl
          | ok w => rfl

theorem isLegible_text (s : String) : IsLegible (.text s) := isLegible_of_reads (reads_text s) rfl

/-- An object with one member, as tagged objects are. -/
theorem isLegible_tagged {tag : String} (h : IsLegible d) : IsLegible (.object [(tag, d)]) :=
  isLegible_object (List.forall_mem_singleton.2 h)

mutual

/-- The documents of values are legible. -/
theorem isLegible_of_encode : ∀ {v : Value} {d : Document}, encode v = .ok d → IsLegible d
  | .null, _, h => by
    cases h
    exact isLegible_of_reads (v := .null) (reads_word fun _ _ => rfl) rfl
  | .bool true, _, h => by
    cases h
    exact isLegible_of_reads (v := .bool true) (reads_word fun _ _ => rfl) rfl
  | .bool false, _, h => by
    cases h
    exact isLegible_of_reads (v := .bool false) (reads_word fun _ _ => rfl) rfl
  | .int n, _, h => by
    rw [encode] at h
    split at h
    · cases h
    · next hdigits =>
      cases h
      exact isLegible_of_reads (reads_int (Nat.not_lt.1 hdigits)) rfl
  | .float x, _, h => by
    cases h
    by_cases hnan : x.isNaN = true
    · exact isLegible_of_reads (reads_nan hnan) (by simp [value, hnan])
    · exact isLegible_of_reads (reads_float fun h => absurd h hnan) (by simp [value, hnan])
  | .text s, _, h => by
    cases h
    exact isLegible_text s
  | .bytes b, _, h => by
    cases h
    exact isLegible_tagged (isLegible_text _)
  | .date d, _, h => by
    cases h
    exact isLegible_tagged (isLegible_text _)
  | .list items, _, h => by
    obtain ⟨ds, hds, rfl⟩ := map_eq_ok_iff.1 h
    exact isLegible_list (isLegible_of_encodeItems hds)
  | .tuple items, _, h => by
    obtain ⟨ds, hds, rfl⟩ := map_eq_ok_iff.1 h
    exact isLegible_list (isLegible_of_encodeItems hds)
  | .set items, _, h => by
    obtain ⟨ds, hds, rfl⟩ := map_eq_ok_iff.1 h
    apply isLegible_tagged
    apply isLegible_list
    intro d hd
    obtain ⟨s, hs⟩ := sortByLiteral_mem (mem_of_sequence hds hd)
    exact isLegible_of_encodeElements hs
  | .dict members, _, h => by
    obtain ⟨ms, hms, rfl⟩ := map_eq_ok_iff.1 h
    exact isLegible_object (isLegible_of_encodeMembers hms)
  | .ellipsis, _, h | .descriptor _, _, h | .keyRange _, _, h | .bare _, _, h | .keyed _ _, _, h
  | .callable _, _, h => nomatch h

theorem isLegible_of_encodeItems : ∀ {items : List Value} {ds : List Document},
    encodeItems items = .ok ds → ∀ d ∈ ds, IsLegible d
  | [], _, h => by
    cases h
    exact nofun
  | v :: rest, _, h => by
    obtain ⟨d, hd, h⟩ := bind_eq_ok_iff.1 h
    obtain ⟨ds, hds, h⟩ := bind_eq_ok_iff.1 h
    cases h
    exact List.forall_mem_cons.2 ⟨isLegible_of_encode hd, isLegible_of_encodeItems hds⟩

theorem isLegible_of_encodeElements : ∀ {items : List Value} {s : String} {d : Document},
    (s, .ok d) ∈ encodeElements items → IsLegible d
  | [], _, _, h => nomatch h
  | v :: rest, _, _, h => by
    rcases List.mem_cons.1 h with h | h
    · exact isLegible_of_encode (congrArg Prod.snd h).symm
    · exact isLegible_of_encodeElements h

theorem isLegible_of_encodeMembers : ∀ {members : List (Value × Value)} {ms : List (String × Document)},
    encodeMembers members = .ok ms → ∀ m ∈ ms, IsLegible m.2
  | [], _, h => by
    cases h
    exact nofun
  | (.text s, v) :: rest, _, h => by
    obtain ⟨d, hd, h⟩ := bind_eq_ok_iff.1 h
    obtain ⟨ms, hms, h⟩ := bind_eq_ok_iff.1 h
    cases h
    exact List.forall_mem_cons.2 ⟨isLegible_of_encode hd, isLegible_of_encodeMembers hms⟩
  | (.null, _) :: _, _, h | (.bool _, _) :: _, _, h | (.int _, _) :: _, _, h
  | (.float _, _) :: _, _, h | (.bytes _, _) :: _, _, h | (.date _, _) :: _, _, h
  | (.list _, _) :: _, _, h | (.tuple _, _) :: _, _, h | (.set _, _) :: _, _, h
  | (.dict _, _) :: _, _, h | (.ellipsis, _) :: _, _, h | (.descriptor _, _) :: _, _, h
  | (.keyRange _, _) :: _, _, h | (.bare _, _) :: _, _, h | (.keyed _ _, _) :: _, _, h
  | (.callable _, _) :: _, _, h => nomatch h

end

end Reader

end Document

namespace Value

variable {v w : Value} {d : Document}

/-- The text of a legible document stands for what the document stands for. -/
theorem loads_print (h : Reader.IsLegible d) : loads (String.ofList d.print) = d.value := by
  obtain ⟨c, more, hc, hblank, _, _, hmark⟩ := Reader.start_of_print d []
  have hread := h (2 * d.print.length + 2) [] (by omega) nofun
  rw [List.append_nil] at hc hread
  have hhead : ¬d.print.head? = some '\ufeff' := by
    rw [hc]
    exact fun h => hmark (Option.some.inj h)
  rw [loads, String.toList_ofList, Reader.readAll, if_neg hhead]
  rw [hc] at hread ⊢
  rw [Reader.skipBlanks_cons hblank, hread]
  cases d.value with
  | ok w => rfl
  | error f => rfl

theorem clone_of_encode (h : encode v = .ok d) : v.clone = Key.formatResult d.value := by
  rw [clone, dumps_of_encode h]
  dsimp only
  rw [loads_print (Reader.isLegible_of_encode h)]
  cases d.value with
  | ok w => rfl
  | error f => rfl

/-- What comes back of a value is what its document stands for. -/
theorem clone_eq_ok_iff (h : encode v = .ok d) : v.clone = .ok w ↔ d.value = .ok w := by
  rw [clone_of_encode h, Key.formatResult_eq_ok_iff]

/-- What comes back of a value from storage is what its document stands for. -/
theorem exists_encode_of_clone (h : v.clone = .ok w) : ∃ d, encode v = .ok d ∧ d.value = .ok w := by
  cases hs : v.dumps with
  | error f =>
      rw [clone, hs] at h
      cases h
  | ok s =>
      obtain ⟨d, hd, _⟩ := exists_encode_of_dumps hs
      exact ⟨d, hd, (clone_eq_ok_iff hd).1 h⟩

end Value
end RecordStore
