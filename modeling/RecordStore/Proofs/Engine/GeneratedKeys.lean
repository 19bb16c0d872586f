import RecordStore.Proofs.Collection.Generator
import RecordStore.Proofs.Engine.Refinement

/-!
Generated keys over whole runs. Whatever keys callers give, and however transactions end, a key that
is generated for an add or a put is above all numbers among the keys of the collection and above all
keys that were generated before in what the transaction goes on from.
-/

namespace RecordStore
namespace Annals

open Effect

variable {t : Annals} {r : StoreRef} {s : Store} {c : EngineCall} {value record key : Value}
  {overwrite : Bool} {made : Keying → Prop}

/-- The keys that were handed out in the collection of a handle since it was made, the latest first:
those of committed transactions, and those of the transaction of the handle. -/
def handed (t : Annals) (r : StoreRef) : List Nat :=
  (t.history (t.worker r.transaction)).handed r.name

theorem handed_next (h : t.IsRecorded made) (hc : c.through? = some r.transaction)
    (hdraft : t.engine.draft? r.transaction = some s)
    (hchange : c.change? (t.engine.transaction r.transaction).mode s.contents =
      some (r.writing value key overwrite)) :
    (t.next c).handed r =
      ((s.contents.get r.name).handedOut? r.keying value key).toList ++ t.handed r := by
  unfold handed
  rw [history_next h hc hdraft, hchange]
  change History.handed r.name (r.writing value key overwrite :: _) = _
  rw [StoreRef.writing, History.handed, if_pos rfl, h.isTrue.contents hdraft]
  rfl

/-- A key is generated for a call: a fresh one, under which there is no record, so that none is
overwritten and the call is not refused for it as a duplicate. Or the keys are exhausted, as they are
when no number is fresh; then no key is handed out. -/
structure Generates (t : Annals) (r : StoreRef) (col : Collection) (c : EngineCall)
    (a : Action Value) : Prop where
  fresh : (∃ n, col.IsFresh (t.handed r) n ∧ (t.next c).handed r = n :: t.handed r ∧
      (∀ k name d, a t.engine ≠ .error (.store (.duplicateKey k name)) d) ∧
      ∀ k d, a t.engine = .ok k d →
        k = .int n ∧ ∃ encoded, k.encodeKey = .ok encoded ∧ col.text? encoded = none) ∨
    (t.next c).handed r = t.handed r ∧ ∃ d, a t.engine = .error (.store .generatorExhausted) d
  exhausted : (¬∃ n, col.IsFresh (t.handed r) n) →
    ∃ d, a t.engine = .error (.store .generatorExhausted) d

theorem generates (h : t.IsRecorded made) (hdraft : t.engine.draft? r.transaction = some s)
    (hcurrent : r.IsCurrentIn s.contents) (hclone : value.clone = .ok record)
    (hcalls : r.keying.callsFor record key = true) (hc : c.through? = some r.transaction)
    (hchange : c.change? (t.engine.transaction r.transaction).mode s.contents =
      some (r.writing value key overwrite)) :
    t.Generates r (s.contents.get r.name) c (r.write value key overwrite) := by
  have hahead : (s.contents.get r.name).IsAhead (t.handed r) := by
    rw [h.isTrue.contents hdraft]
    exact History.isAhead_handed (h.isSuitable.history _) r.name
  have hrun := StoreRef.write_of_draft hdraft (h.isOrderly.mode_ne_readonly hdraft) value key overwrite
  have hhanded := handed_next h hc hdraft hchange
  have hwrite := Collection.write_of_callsFor hahead hcurrent hclone hcalls r.name overwrite
  have hfresh : (∃ n, (s.contents.get r.name).IsFresh (t.handed r) n ∧
      (t.next c).handed r = n :: t.handed r ∧
      (∀ k name d, r.write value key overwrite t.engine ≠ .error (.store (.duplicateKey k name)) d) ∧
      ∀ k d, r.write value key overwrite t.engine = .ok k d → k = .int n ∧
        ∃ encoded, k.encodeKey = .ok encoded ∧ (s.contents.get r.name).text? encoded = none) ∨
      (t.next c).handed r = t.handed r ∧
        ∃ d, r.write value key overwrite t.engine = .error (.store .generatorExhausted) d := by
    rw [hrun, hhanded]
    rcases hwrite with ⟨n, hn, hfresh, hduplicate, hok⟩ | ⟨hnone, _, hexhausted⟩
    · refine .inl ⟨n, hfresh, by rw [hn]; rfl, fun k name d heq => ?_, fun k d heq => ?_⟩
      · exact hduplicate k name (ending_eq_error_iff.1 heq).1
      · exact hok k (ending_eq_ok_iff.1 heq).1
    · rw [hnone, hexhausted]
      exact .inr ⟨rfl, _, rfl⟩
  refine ⟨hfresh, fun hnone => ?_⟩
  rcases hfresh with ⟨n, hn, _⟩ | ⟨_, hexhausted⟩
  · exact absurd ⟨n, hn⟩ hnone
  · exact hexhausted

/-- In every run in which whoever writes has a current handle, generated keys are fresh. -/
theorem generatesFresh_of_isReached (h : t.IsReached fun _ => True)
    (hdraft : t.engine.draft? r.transaction = some s) (hcurrent : r.IsCurrentIn s.contents)
    (hclone : value.clone = .ok record) (hcalls : r.keying.callsFor record key = true) :
    t.Generates r (s.contents.get r.name) (.add r value key) (r.add value key) ∧
      t.Generates r (s.contents.get r.name) (.put r value key) (r.put value key) :=
  ⟨generates (isRecorded_of_isReached h) hdraft hcurrent hclone hcalls rfl rfl,
    generates (isRecorded_of_isReached h) hdraft hcurrent hclone hcalls rfl rfl⟩

/-- After a generated key and a greater key that was given, the next generated key is above both. -/
theorem generatesFresh_notesBegun :
    let t := (notesBegun.next (.add notes (.text "first") .null)).next
      (.put notes (.text "given") (.int 7))
    t.IsReached (fun _ => True) ∧ t.handed notes = [1] ∧
      (t.next (.add notes (.text "second") .null)).handed notes = [8, 1] ∧
        ∃ s, t.engine.draft? notes.transaction = some s ∧
          t.Generates notes (s.contents.get notes.name) (.add notes (.text "second") .null)
            (notes.add (.text "second") .null) := by
  intro t
  have hadded : ∀ s ∈ (notesBegun.next (.add notes (.text "first") .null)).engine.draft?
      notes.transaction, notes.IsCurrentIn s.contents := by decide +kernel
  have hreached : t.IsReached fun _ => True :=
    .next (.next (isReached_notesBegun trivial) (allows_of_isCurrentIn rfl isCurrentIn_notesBegun))
      (allows_of_isCurrentIn rfl hadded)
  have hcurrent : ∀ s ∈ t.engine.draft? notes.transaction, notes.IsCurrentIn s.contents := by
    decide +kernel
  have hsome : (t.engine.draft? notes.transaction).isSome = true := by decide +kernel
  obtain ⟨s, hs⟩ := Option.isSome_iff_exists.1 hsome
  have hclone : (Value.text "second").clone.toOption.isSome = true := by decide +kernel
  obtain ⟨record, hrecord⟩ := Option.isSome_iff_exists.1 hclone
  refine ⟨hreached, by decide +kernel, by decide +kernel, s, hs, ?_⟩
  exact (generatesFresh_of_isReached hreached hs (hcurrent s hs) (eq_ok_of_toOption hrecord) rfl).1

end Annals
end RecordStore
