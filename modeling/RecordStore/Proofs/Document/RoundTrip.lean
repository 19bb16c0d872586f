import RecordStore.Proofs.Document.Stored
import RecordStore.Proofs.Document.Strings
import RecordStore.Proofs.Key.ByteOrder
import RecordStore.Proofs.Text.Base64

/-!
Storing a stored value again. Its document is written, and the text is read back as the very same
value; so a record that is read and written back stays what it was. The induction is on the value,
with arbitrary text after its document that can follow a value.
-/

namespace RecordStore

open Document

namespace Document
namespace Reader

open Value (IsStored AllStored MembersStored allStored_iff)

/-! ### The start of a value -/

/-- No word stands where a number does. -/
theorem word?_of_isDigit {c : Char} (hc : c.isDigit = true) (cs : List Char) :
    word? (c :: cs) = none ∧ word? ('-' :: c :: cs) = none := by
  have hne (d : Char) (hd : d.isDigit = false) : d ≠ c := by
    rintro rfl
    rw [hc] at hd
    cases hd
  constructor
  · simp [word?, words, nullWord, trueWord, falseWord, nanWord, infinityWord, hne 'n' rfl,
      hne 't' rfl, hne 'f' rfl, hne 'N' rfl, hne 'I' rfl, hne '-' rfl]
  · simp [word?, words, nullWord, trueWord, falseWord, nanWord, infinityWord, hne 'I' rfl]

theorem exists_wholeDigits_eq_cons {cs : List Char} (h : ¬(wholeDigits cs).isEmpty = true) :
    ∃ c rest, cs = c :: rest ∧ c.isDigit = true := by
  cases cs with
  | nil => exact absurd rfl h
  | cons c rest =>
      refine ⟨c, rest, rfl, ?_⟩
      by_contra hc
      apply h
      have h0 : c ≠ '0' := by
        rintro rfl
        exact hc rfl
      rw [wholeDigits.eq_2 _ (by simpa using h0), List.takeWhile_cons_of_neg hc, List.isEmpty_nil]

/-- A number is read where a value is. -/
theorem readValue_of_readNumber {cs rest : List Char} {v : Value}
    (h : readNumber cs = .ok (v, rest)) (fuel : Nat) :
    readValue (fuel + 1) cs = .ok (v, rest) := by
  have hstart : ∃ c more, c.isDigit = true ∧ (cs = c :: more ∨ cs = '-' :: c :: more) := by
    have hwhole : ¬(wholeDigits
        (if (cs.head? == some '-') = true then cs.drop 1 else cs)).isEmpty = true := by
      intro hempty
      simp only [readNumber, hempty, if_true] at h
      cases h
    obtain ⟨c, more, hbody, hc⟩ := exists_wholeDigits_eq_cons hwhole
    refine ⟨c, more, hc, ?_⟩
    cases cs with
    | nil => cases hbody
    | cons d ds =>
        by_cases hd : d = '-'
        · subst hd
          exact .inr (congrArg _ hbody)
        · rw [if_neg (by simpa using hd)] at hbody
          exact .inl hbody
  obtain ⟨c, more, hc, rfl | rfl⟩ := hstart
  · have hne (d : Char) (hd : d.isDigit = false) : c ≠ d := by
      rintro rfl
      rw [hc] at hd
      cases hd
    rw [readValue, if_neg (hne _ rfl), if_neg (hne _ rfl), if_neg (hne _ rfl),
      (word?_of_isDigit hc more).1]
    exact h
  · rw [readValue, if_neg (by decide), if_neg (by decide), if_neg (by decide),
      (word?_of_isDigit hc more).2]
    exact h

/-- What a value starts with: no blank, no end of a list or an object, and no mark. -/
theorem start_of_readValue {fuel : Nat} {cs rest : List Char} {v : Value}
    (h : readValue fuel cs = .ok (v, rest)) :
    ∃ c more, cs = c :: more ∧ isBlank c = false ∧ c ≠ ']' ∧ c ≠ '\x7d' ∧ c ≠ '\ufeff' := by
  cases fuel with
  | zero => cases h
  | succ fuel =>
      cases cs with
      | nil => cases h
      | cons c more =>
          refine ⟨c, more, rfl, ?_, ?_, ?_, ?_⟩
          · rw [isBlank]
            simp only [Bool.or_eq_false_iff, beq_eq_false_iff_ne]
            refine ⟨⟨⟨?_, ?_⟩, ?_⟩, ?_⟩
            all_goals
              rintro rfl
              cases h
          all_goals
            rintro rfl
            cases h

/-! ### Documents -/

/-- A document is read as a value, whatever follows it. The bound is twice the number of its
characters, since every level of nesting takes two steps and has a character of its own. -/
def Reads (v : Value) (d : Document) : Prop :=
  ∀ fuel rest, 2 * (print d).length ≤ fuel → IsEnd rest →
    readValue fuel (print d ++ rest) = .ok (v, rest)

theorem start_of_reads {v : Value} {d : Document} (h : Reads v d) (rest : List Char) :
    ∃ c more, print d ++ rest = c :: more ∧ isBlank c = false ∧ c ≠ ']' ∧ c ≠ '\x7d' ∧
      c ≠ '\ufeff' := by
  obtain ⟨c, more, hc, hstart⟩ := start_of_readValue (h _ [] le_rfl nofun)
  rw [List.append_nil] at hc
  exact ⟨c, more ++ rest, by rw [hc, List.cons_append], hstart⟩

theorem skipBlanks_cons {c : Char} (h : isBlank c = false) (cs : List Char) :
    skipBlanks (c :: cs) = c :: cs :=
  List.dropWhile_cons_of_neg (by rw [h]; exact Bool.false_ne_true)

theorem reads_of_readNumber {v : Value} {d : Document}
    (h : ∀ rest, IsEnd rest → readNumber (print d ++ rest) = .ok (v, rest)) : Reads v d := by
  intro fuel rest hfuel hr
  have hne : print d ≠ [] := by
    intro h0
    have hread := h [] nofun
    rw [h0] at hread
    cases hread
  have hpos := List.length_pos_iff.2 hne
  obtain ⟨fuel, rfl⟩ : ∃ n, fuel = n + 1 := ⟨fuel - 1, by omega⟩
  exact readValue_of_readNumber (h rest hr) fuel

theorem reads_int {n : Int} (h : (Decimal.digitsOf n.natAbs).length ≤ maxDigits) :
    Reads (.int n) (.int n) :=
  reads_of_readNumber fun _ hr => readNumber_int h hr

/-- A word is read as what it stands for. -/
theorem reads_word {v : Value} {d : Document}
    (h : ∀ fuel rest, readValue (fuel + 1) (print d ++ rest) = .ok (v, rest)) : Reads v d := by
  intro fuel rest hfuel _
  have hne : print d ≠ [] := by
    intro h0
    have hread := h 0 []
    rw [h0] at hread
    cases hread
  have hpos := List.length_pos_iff.2 hne
  obtain ⟨fuel, rfl⟩ : ∃ n, fuel = n + 1 := ⟨fuel - 1, by omega⟩
  exact h fuel rest

theorem reads_float {x : Double} (h : x.isNaN = true → x = .nan) : Reads (.float x) (.float x) := by
  by_cases hnan : x.isNaN = true
  · rw [h hnan]
    exact reads_word fun fuel rest => rfl
  by_cases hinf : x.isInfinite = true
  · have hx : x = .infinity x.isNegative := by
      conv_lhs => rw [← Double.ofIndex_index x, Double.isInfinite_iff.1 hinf]
      rfl
    rw [hx]
    cases x.isNegative
    · exact reads_word fun fuel rest => rfl
    · exact reads_word fun fuel rest => rfl
  · have hfinite : x.isFinite = true := by
      have hle := Double.isNaN_eq_false_iff.1 (Bool.not_eq_true _ ▸ hnan)
      rw [Double.isInfinite_iff] at hinf
      exact Double.isFinite_iff.2 (lt_of_le_of_ne hle hinf)
    have hprint : print (.float x) = x.decimalText := by
      rw [print, printDouble, if_neg hnan, if_neg hinf]
    refine reads_of_readNumber fun rest hr => ?_
    rw [hprint]
    exact readNumber_decimalText hfinite hr

/-- All that is not a number is written in one way. -/
theorem reads_nan {x : Double} (h : x.isNaN = true) : Reads (.float .nan) (.float x) :=
  reads_word fun _ _ => by rw [print, printDouble, if_pos h]; rfl

theorem reads_text (s : String) : Reads (.text s) (.text s) := by
  refine reads_word fun fuel rest => ?_
  rw [print, printString, List.append_assoc, List.cons_append, readValue, if_pos rfl]
  rw [List.singleton_append, readString_printString]
  rfl

/-! ### Lists and objects -/

/-- The items of a list are read up to its end. -/
theorem readItems_of_reads {v : Value} {d : Document} {vs : List Value} {ds : List Document}
    (h : Reads v d) (hs : List.Forall₂ Reads vs ds) (fuel : Nat)
    (hfuel : 2 * ((print d).length + (printItems ds).length) ≤ fuel) (rest : List Char) :
    readItems fuel (print d ++ (printItems ds ++ rest)) = .ok (v :: vs, rest) := by
  induction hs generalizing v d fuel with
  | nil =>
      rw [printItems, List.length_singleton] at hfuel
      obtain ⟨fuel, rfl⟩ : ∃ n, fuel = n + 1 := ⟨fuel - 1, by omega⟩
      rw [readItems, h fuel _ (by omega) (by rintro c ⟨⟩; exact .inr (.inl rfl))]
      rfl
  | cons hw hws ih =>
      rename_i w e ws es
      rw [printItems, List.length_append, List.length_cons] at hfuel
      obtain ⟨fuel, rfl⟩ : ∃ n, fuel = n + 1 := ⟨fuel - 1, by omega⟩
      obtain ⟨c, more, hc, hblank, _⟩ := start_of_reads hw (printItems es ++ rest)
      rw [printItems, readItems, List.append_assoc, List.cons_append,
        h fuel _ (by omega) (by rintro c ⟨⟩; exact .inl rfl), ok_bind]
      have hread := ih hw fuel (by omega)
      rw [hc] at hread ⊢
      simp only [skipBlanks_cons (c := ',') rfl, skipBlanks_cons hblank, hread, ok_bind]

theorem reads_list {vs : List Value} {ds : List Document} (hs : List.Forall₂ Reads vs ds) :
    Reads (.list vs) (.list ds) := by
  cases hs with
  | nil => exact reads_word fun fuel rest => rfl
  | cons h hs =>
      rename_i v d vs ds
      intro fuel rest hfuel _
      rw [print, List.length_append, List.length_cons] at hfuel
      obtain ⟨fuel, rfl⟩ : ∃ n, fuel = n + 1 := ⟨fuel - 1, by omega⟩
      obtain ⟨c, more, hc, hblank, hend, _⟩ := start_of_reads h (printItems ds ++ rest)
      have hread := readItems_of_reads h hs fuel (by omega) rest
      rw [print, List.append_assoc, List.cons_append, readValue, if_neg (by decide),
        if_neg (by decide), if_pos rfl]
      rw [hc] at hread ⊢
      rw [skipBlanks_cons hblank]
      split
      · next heq =>
        cases heq
        exact absurd rfl hend
      · rw [hread]
        rfl

/-- A field is read from a member of an object. -/
def FieldReads (f : String × Value) (m : String × Document) : Prop := f.1 = m.1 ∧ Reads f.2 m.2

/-- The members of an object are read up to its end. -/
theorem readMembers_of_reads (name : String) {v : Value} {d : Document}
    {fs : List (String × Value)} {ms : List (String × Document)} (h : Reads v d)
    (hs : List.Forall₂ FieldReads fs ms) (fuel : Nat)
    (hfuel : 2 * ((print d).length + (printMembers ms).length) ≤ fuel) (rest : List Char) :
    readMembers fuel (printString name ++ ':' :: (print d ++ (printMembers ms ++ rest))) =
      .ok ((name, v) :: fs, rest) := by
  induction hs generalizing name v d fuel with
  | nil =>
      rw [printMembers, List.length_singleton] at hfuel
      obtain ⟨fuel, rfl⟩ : ∃ n, fuel = n + 1 := ⟨fuel - 1, by omega⟩
      obtain ⟨c, more, hc, hblank, _⟩ := start_of_reads h (printMembers [] ++ rest)
      have hread := h fuel (printMembers [] ++ rest) (by omega)
        (by rintro c ⟨⟩; exact .inr (.inr rfl))
      rw [printString, List.append_assoc, List.cons_append, readMembers]
      simp only [List.singleton_append, readString_printString, ok_bind,
        skipBlanks_cons (c := ':') rfl]
      rw [hc] at hread ⊢
      rw [skipBlanks_cons hblank, hread]
      rfl
  | cons hw hws ih =>
      rename_i f m fs ms
      obtain ⟨other, w⟩ := f
      obtain ⟨written, e⟩ := m
      obtain ⟨hname, hw⟩ := hw
      change other = written at hname
      change Reads w e at hw
      subst hname
      rw [printMembers, List.length_append, List.length_append, List.length_cons,
        List.length_cons] at hfuel
      obtain ⟨fuel, rfl⟩ : ∃ n, fuel = n + 1 := ⟨fuel - 1, by omega⟩
      obtain ⟨c, more, hc, hblank, _⟩ :=
        start_of_reads h (printMembers ((other, e) :: ms) ++ rest)
      have hread := h fuel (printMembers ((other, e) :: ms) ++ rest) (by omega)
        (by rw [printMembers]; rintro c ⟨⟩; exact .inl rfl)
      have hnext := ih other hw fuel (by omega)
      rw [printString, List.append_assoc, List.cons_append, readMembers]
      simp only [List.singleton_append, readString_printString, ok_bind,
        skipBlanks_cons (c := ':') rfl]
      rw [hc] at hread ⊢
      rw [skipBlanks_cons hblank, hread, ok_bind]
      have hmembers : printMembers ((other, e) :: ms) ++ rest =
          ',' :: (printString other ++ ':' :: (print e ++ (printMembers ms ++ rest))) := by
        rw [printMembers]
        simp only [List.append_assoc, List.cons_append]
      have hskip (cs : List Char) : skipBlanks (printString other ++ cs) = printString other ++ cs :=
        rfl
      simp only [hmembers, skipBlanks_cons (c := ',') rfl, hskip, hnext, ok_bind]

/-- An object is read as what its fields are closed to. -/
theorem reads_object {name : String} {v w : Value} {d : Document} {fs : List (String × Value)}
    {ms : List (String × Document)} (h : Reads v d) (hs : List.Forall₂ FieldReads fs ms)
    (hclose : close ((name, v) :: fs) = .ok w) : Reads w (.object ((name, d) :: ms)) := by
  intro fuel rest hfuel _
  rw [print, List.length_append, List.length_append, List.length_cons, List.length_cons] at hfuel
  obtain ⟨fuel, rfl⟩ : ∃ n, fuel = n + 1 := ⟨fuel - 1, by omega⟩
  have hread := readMembers_of_reads name h hs fuel (by omega) rest
  have hprint : print (.object ((name, d) :: ms)) ++ rest =
      '\x7b' :: (printString name ++ ':' :: (print d ++ (printMembers ms ++ rest))) := by
    rw [print]
    simp only [List.append_assoc, List.cons_append]
  have hskip (cs : List Char) : skipBlanks (printString name ++ cs) = '"' ::
      (name.toList.flatMap escapeChar ++ ['"'] ++ cs) := rfl
  rw [hprint, readValue, if_neg (by decide), if_pos rfl, hskip]
  change (readMembers fuel (printString name ++ _) >>= _) = _
  rw [hread, ok_bind]
  simp only [hclose]

theorem reads_of_close {w : Value} {fs : List (String × Value)} {ms : List (String × Document)}
    (hs : List.Forall₂ FieldReads fs ms) (hclose : close fs = .ok w) : Reads w (.object ms) := by
  cases hs with
  | nil =>
      cases hclose
      exact reads_word fun _ _ => rfl
  | @cons f m fs ms h hs =>
      obtain ⟨name, v⟩ := f
      obtain ⟨written, d⟩ := m
      obtain ⟨hname, hv⟩ := h
      change name = written at hname
      subst hname
      exact reads_object hv hs hclose

/-- A tagged object is read as what its tag makes of the content. -/
theorem reads_tagged {tag : String} {v w : Value} {d : Document} (h : Reads v d)
    (hclose : close [(tag, v)] = .ok w) : Reads w (.object [(tag, d)]) :=
  reads_object h List.Forall₂.nil hclose

theorem close_dateTag (v : Value) : close [(dateTag, v)] = dateOf v := by
  simp only [close, List.foldl_cons, List.foldl_nil, Value.setMember, if_true]

theorem close_bytesTag (v : Value) : close [(bytesTag, v)] = bytesOf v := by
  have hne : bytesTag ≠ dateTag := by decide
  simp only [close, List.foldl_cons, List.foldl_nil, Value.setMember, if_neg hne, if_true]

theorem close_setTag (v : Value) : close [(setTag, v)] = setOf v := by
  have hne : setTag ≠ dateTag := by decide
  have hne' : setTag ≠ bytesTag := by decide
  simp only [close, List.foldl_cons, List.foldl_nil, Value.setMember, if_neg hne, if_neg hne',
    if_true]

theorem encodeChars_of_isAscii {cs : List Char} (h : ∀ c ∈ cs, c.toNat < 128) :
    Utf8.encodeChars cs = cs.map Base64.asciiByte := by
  induction cs with
  | nil => rfl
  | cons c cs ih =>
      have hc := h c List.mem_cons_self
      have hchar : String.utf8EncodeChar c = [Base64.asciiByte c] := by
        rcases Utf8.utf8EncodeChar_cases c with ⟨_, ec⟩ | ⟨hlt, _⟩ | ⟨hlt, _⟩ | ⟨hlt, _⟩
        · exact ec
        all_goals omega
      rw [Utf8.encodeChars, List.flatMap_cons, hchar, List.map_cons, ← ih fun d hd =>
        h d (List.mem_cons_of_mem _ hd)]
      rfl

theorem reads_bytes (b : List UInt8) :
    Reads (.bytes b) (.object [(bytesTag, .text (String.ofList (Base64.encode b)))]) := by
  refine reads_tagged (reads_text _) ?_
  have hascii := Base64.encode_isAscii b
  have hall : (Base64.encode b).all (fun c => decide (c.toNat < 128)) = true :=
    List.all_eq_true.2 fun c hc => decide_eq_true (hascii c hc)
  have hbytes : Utf8.encode (String.ofList (Base64.encode b)) =
      (Base64.encode b).map Base64.asciiByte := by
    rw [Utf8.encode, String.toList_ofList, encodeChars_of_isAscii hascii]
  rw [close_bytesTag, bytesOf, String.toList_ofList, hall, if_pos rfl, bytesOf.ofAscii, hbytes,
    Base64.decode_encode]

theorem reads_date {d : DateTime} (h : ∀ o ∈ d.offset, IsoText.IsKeptOffset o) :
    Reads (.date d) (.object [(dateTag, .text (String.ofList (IsoText.text 'T' d)))]) := by
  refine reads_tagged (reads_text _) ?_
  rw [close_dateTag, dateOf, String.toList_ofList, IsoText.read_text h]

/-! ### Stored values -/

theorem member?_append {name : String} {kept rest : List (Value × Value)}
    (h : Value.member? name (kept ++ rest) = none) :
    Value.member? name kept = none ∧ Value.member? name rest = none := by
  induction kept with
  | nil => exact ⟨rfl, h⟩
  | cons m kept ih =>
      obtain ⟨k, w⟩ := m
      cases k with
      | text s =>
          rw [List.cons_append, Value.member?] at h
          rw [Value.member?]
          split at h
          · cases h
          · next hne =>
            rw [if_neg hne]
            exact ih h
      | _ => exact ih h

theorem membersStored_of_append {kept rest : List (Value × Value)}
    (h : MembersStored (kept ++ rest)) : MembersStored kept := by
  induction kept with
  | nil => trivial
  | cons m kept ih =>
      obtain ⟨k, w⟩ := m
      cases k with
      | text s => exact ⟨h.1, (member?_append h.2.1).1, ih h.2.2⟩
      | _ => exact h.elim

theorem member?_of_membersStored {name : String} {v : Value} {kept rest : List (Value × Value)}
    (h : MembersStored (kept ++ (.text name, v) :: rest)) : Value.member? name kept = none := by
  induction kept with
  | nil => rfl
  | cons m kept ih =>
      obtain ⟨k, w⟩ := m
      cases k with
      | text s =>
          have hs := (member?_append h.2.1).2
          rw [Value.member?] at hs ⊢
          split at hs
          · cases hs
          · next hne =>
            rw [if_neg fun heq => hne heq.symm]
            exact ih h.2.2
      | _ => exact h.elim

/-- Fields that are set one after the other make up the members, if each name occurs once. -/
theorem foldl_setMember {fields : List (String × Value)} (kept : List (Value × Value))
    (h : MembersStored (kept ++ fields.map fun f => (.text f.1, f.2))) :
    fields.foldl (fun kept (name, v) => Value.setMember name v kept) kept =
      kept ++ fields.map fun f => (.text f.1, f.2) := by
  induction fields generalizing kept with
  | nil => rw [List.foldl_nil, List.map_nil, List.append_nil]
  | cons f fields ih =>
      obtain ⟨name, v⟩ := f
      have hset := Value.setMember_of_member? v (membersStored_of_append h)
        (member?_of_membersStored h)
      rw [List.foldl_cons]
      simp only [hset]
      rw [ih _ (by simpa using h), List.append_assoc]
      rfl

/-- The fields of a stored mapping are closed to the mapping. -/
theorem close_of_isStored {fields : List (String × Value)}
    (h : (Value.dict (fields.map fun f => (.text f.1, f.2))).IsStored) :
    close fields = .ok (.dict (fields.map fun f => (.text f.1, f.2))) := by
  obtain ⟨hm, htag⟩ := h
  have hfold := foldl_setMember [] hm
  rw [List.nil_append] at hfold
  rw [close]
  simp only [hfold]
  split
  · next s v heq =>
    have hnot := htag s v heq
    rw [IsTag, not_or, not_or] at hnot
    rw [if_neg hnot.1, if_neg hnot.2.1, if_neg hnot.2.2]
  · rfl

theorem encodeElements_eq (items : List Value) :
    encodeElements items = items.map fun v => (v.literal, encode v) := by
  induction items with
  | nil => rfl
  | cons v rest ih => rw [encodeElements, ih, List.map_cons]

theorem sequence_map_encode (items : List Value) :
    sequence (items.map encode) = encodeItems items := by
  induction items with
  | nil => rfl
  | cons v rest ih => rw [List.map_cons, sequence, ih, encodeItems]

mutual

/-- A stored value has a document, which is read as the value. -/
theorem exists_reads : ∀ {v : Value}, v.IsStored → ∃ d, encode v = .ok d ∧ Reads v d
  | .null, _ => ⟨_, rfl, reads_word fun _ _ => rfl⟩
  | .bool true, _ => ⟨_, rfl, reads_word fun _ _ => rfl⟩
  | .bool false, _ => ⟨_, rfl, reads_word fun _ _ => rfl⟩
  | .int n, h => ⟨.int n, if_neg (Nat.not_lt.2 h), reads_int h⟩
  | .float x, h => ⟨_, rfl, reads_float h⟩
  | .text s, _ => ⟨_, rfl, reads_text s⟩
  | .bytes b, _ => ⟨_, rfl, reads_bytes b⟩
  | .date d, h => ⟨_, rfl, reads_date h⟩
  | .list items, h => by
    obtain ⟨ds, hds, hreads⟩ := exists_reads_items h
    exact ⟨.list ds, by rw [encode, hds, map_ok], reads_list hreads⟩
  | .set items, h => by
    obtain ⟨ds, hds, hreads⟩ := exists_reads_items h.1
    refine ⟨.object [(setTag, .list ds)], ?_, reads_tagged (reads_list hreads) ?_⟩
    · rw [encode, encodeElements_eq, sortByLiteral_map h.2.sorted, sequence_map_encode, hds, map_ok]
    · rw [close_setTag, setOf, setOfItems_of_isCanonical h.2]
  | .dict members, h => by
    obtain ⟨fields, ms, hfields, hms, hreads⟩ := exists_reads_members h.1
    subst hfields
    exact ⟨.object ms, by rw [encode, hms, map_ok], reads_of_close hreads (close_of_isStored h)⟩

theorem exists_reads_items : ∀ {items : List Value}, AllStored items →
    ∃ ds, encodeItems items = .ok ds ∧ List.Forall₂ Reads items ds
  | [], _ => ⟨[], rfl, .nil⟩
  | v :: rest, h => by
    obtain ⟨d, hd, hv⟩ := exists_reads h.1
    obtain ⟨ds, hds, hrest⟩ := exists_reads_items h.2
    exact ⟨d :: ds, by rw [encodeItems, hd, hds]; rfl, .cons hv hrest⟩

theorem exists_reads_members : ∀ {members : List (Value × Value)}, MembersStored members →
    ∃ (fields : List (String × Value)) (ms : List (String × Document)),
      fields.map (fun f => (.text f.1, f.2)) = members ∧
      encodeMembers members = .ok ms ∧ List.Forall₂ FieldReads fields ms
  | [], _ => ⟨[], [], rfl, rfl, .nil⟩
  | (.text s, v) :: rest, h => by
    obtain ⟨d, hd, hv⟩ := exists_reads h.1
    obtain ⟨fields, ms, hfields, hms, hrest⟩ := exists_reads_members h.2.2
    exact ⟨(s, v) :: fields, (s, d) :: ms, by rw [List.map_cons, hfields],
      by rw [encodeMembers, hd, hms]; rfl, .cons ⟨rfl, hv⟩ hrest⟩

end

mutual

theorem checkNames_of_isStored : ∀ {v : Value}, v.IsStored → checkNames v = .ok ()
  | .list _, h => checkItems_of_allStored h
  | .dict _, h => checkMembers_of_membersStored h.1
  | .null, _ | .bool _, _ | .int _, _ | .float _, _ | .text _, _ | .bytes _, _ | .date _, _
  | .set _, _ => rfl

theorem checkItems_of_allStored : ∀ {items : List Value}, AllStored items →
    checkItems items = .ok ()
  | [], _ => rfl
  | v :: rest, h => by
    rw [checkItems, checkNames_of_isStored h.1, checkItems_of_allStored h.2]
    rfl

theorem checkMembers_of_membersStored : ∀ {members : List (Value × Value)},
    MembersStored members → checkMembers members = .ok ()
  | [], _ => rfl
  | (.text _, v) :: rest, h => by
    rw [checkMembers, checkNames_of_isStored h.1, checkMembers_of_membersStored h.2.2]
    rfl

end

end Reader
end Document

theorem Value.exists_encode_of_dumps {v : Value} {s : String} (h : v.dumps = .ok s) :
    ∃ d, encode v = .ok d ∧ s = String.ofList d.print := by
  obtain ⟨d, hd, rfl⟩ := map_eq_ok_iff.1 h
  obtain ⟨_, _, hd⟩ := bind_eq_ok_iff.1 hd
  exact ⟨d, hd, rfl⟩

/-- The text of a document is read as the document is. -/
theorem Value.loads_of_reads {v : Value} {d : Document} (h : Reader.Reads v d) :
    loads (String.ofList d.print) = .ok v := by
  obtain ⟨c, more, hc, hblank, _, _, hmark⟩ := Reader.start_of_reads h []
  have hread := h (2 * d.print.length + 2) [] (by omega) nofun
  rw [List.append_nil] at hc hread
  have hhead : ¬d.print.head? = some '\ufeff' := by
    rw [hc]
    exact fun h => hmark (Option.some.inj h)
  rw [loads, String.toList_ofList, Reader.readAll, if_neg hhead]
  rw [hc] at hread ⊢
  rw [Reader.skipBlanks_cons hblank, hread]
  rfl

/-- A stored value can be stored again, and is read back as it was. -/
theorem Value.loads_dumps {v : Value} (h : v.IsStored) : ∃ s, v.dumps = .ok s ∧ loads s = .ok v := by
  obtain ⟨d, hd, hreads⟩ := Reader.exists_reads h
  refine ⟨String.ofList d.print, ?_, loads_of_reads hreads⟩
  rw [dumps, Document.ofValue, Reader.checkNames_of_isStored h, ok_bind, hd, map_ok]

theorem Value.loads_of_dumps {v : Value} {s : String} (h : v.IsStored) (hs : v.dumps = .ok s) :
    loads s = .ok v := by
  obtain ⟨t, ht, hloads⟩ := loads_dumps h
  rw [hs] at ht
  cases ht
  exact hloads

end RecordStore
