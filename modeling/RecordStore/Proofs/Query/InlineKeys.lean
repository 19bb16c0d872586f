import RecordStore.Proofs.Collection.InlineKeys
import RecordStore.Proofs.Query.Calls
import RecordStore.Proofs.Query.Modifying

/-!
Keys that are inside their records, over whole runs. In a run in which whoever writes to a collection has
a current handle, each record of the collection is under the key that its key path finds in it: in the
stores that are kept, in what transactions have seen, and in drafts, also while a query that modifies
records is under way.
-/

namespace RecordStore

open Effect

/-- A call that writes a record changes the collection of its handle. -/
theorem EngineCall.name_of_change? {c : EngineCall} {r : StoreRef} {value : Value} {mode : Mode}
    {s : Contents} {name : String} {change : Change} (hc : c.record? = some (r, value))
    (h : c.change? mode s = some (name, change)) : r.name = name := by
  cases c with
  | add other record key =>
      cases hc
      cases h
      rfl
  | put other record key =>
      cases hc
      cases h
      rfl
  | updateCursor cur record =>
      cases hc
      rw [change?, CursorRef.writing?] at h
      split at h
      · cases h
      split at h
      · cases h
        rfl
      split at h
      · cases h
      · cases h
        rfl
  | _ => cases hc

namespace Engine

variable {e : Engine} {name : String}

/-- States that calls lead to in which the collections of some name have their keys inside their
records. -/
structure HasInlineKeys (name : String) (e : Engine) : Prop where
  isReachable : e.IsReachable
  isInline : e.AllContents fun s => (s.get name).IsInline

theorem hasInlineKeys_initial : initial.HasInlineKeys name :=
  ⟨.initial, allContents_initial Collection.isInline_empty⟩

/-- A call of whoever has current handles keeps the keys inside the records. -/
theorem hasInlineKeys_run (h : e.HasInlineKeys name) {c : EngineCall} (hc : c.WritesCurrently name e) :
    (c.run.after e).HasInlineKeys name := by
  refine ⟨h.isReachable.next c, ?_⟩
  cases hthrough : c.through? with
  | none =>
      exact (EngineCall.allContents_run_of_not_through Collection.isInline_empty hthrough).after h.isInline
  | some tx =>
      cases hdraft : e.draft? tx with
      | none => exact EngineCall.allContents_run_of_no_draft h.isInline hthrough hdraft
      | some s =>
          rw [EngineCall.allContents_run_iff_of_draft h.isReachable h.isInline hthrough hdraft]
          have hinline := h.isInline.draft hdraft
          cases hchange : c.change? (e.transaction tx).mode s.contents with
          | none => exact hinline
          | some made =>
              obtain ⟨changed, change⟩ := made
              change ((s.contents.set changed _).get name).IsInline
              by_cases hname : name = changed
              · subst hname
                rw [Contents.get_set_self]
                have hallows : Annals.Allows (fun _ => True) ⟨e, fun _ => [], fun _ => []⟩ c :=
                  ⟨fun r value s' hrecord hs' => hc r value s' hrecord
                    (EngineCall.name_of_change? hrecord hchange) hs', fun _ _ _ _ _ _ _ => trivial⟩
                exact Collection.isInline_apply hinline
                  ((isRegular_of_isReachable h.isReachable).draft hdraft name)
                  (Annals.suits_change hallows hthrough hdraft hchange) name
              · rw [Contents.get_set_of_ne hname]
                exact hinline

theorem isKeptByCalls_hasInlineKeys (name : String) : IsKeptByCalls (HasInlineKeys name) where
  isReachable h := h.isReachable
  call _ h hc := hasInlineKeys_run h (hc name)

/-! ### Runs with queries -/

/-- States that calls and queries lead to when whoever writes records to collections of some name has a
current handle. A query may also have come through only some of its visits. -/
inductive IsReachedFor (name : String) : Engine → Prop
  | initial : IsReachedFor name initial
  | call {e : Engine} {c : EngineCall} : IsReachedFor name e → c.WritesCurrently name e →
    IsReachedFor name (c.run.after e)
  | query {e : Engine} (q : Query) (db : Nat) (range : Value) : IsReachedFor name e →
    IsReachedFor name ((q.run db range).after e)
  | visits {e : Engine} (q : Query) (visits : Nat) (r : CursorRef) (passed : Nat) :
    IsReachedFor name e →
    (∀ s, e.draft? r.store.transaction = some s → r.store.IsCurrentIn s.contents) →
    IsReachedFor name ((q.traverse visits r passed).after e)

theorem hasInlineKeys_of_isReachedFor (h : e.IsReachedFor name) : e.HasInlineKeys name := by
  have hkept := isKeptByCalls_hasInlineKeys name
  induction h with
  | initial => exact hasInlineKeys_initial
  | call _ hc ih => exact hasInlineKeys_run ih hc
  | query q db range _ ih => exact (Query.keeps_run_of_calls hkept q db range).after ih
  | visits q visits r passed _ hcurrent ih =>
      exact (keeps_iff_after.1 (Query.keeps_traverse_of_calls hkept q visits r passed) _
        ⟨ih, hcurrent⟩).1

/-- In every state of such a run, wherever a collection of the name has a key path without tags, each of
its records is under the encoding of the valid key that the key path finds in it. -/
theorem keysInline_of_isReachedFor (h : e.IsReachedFor name) : e.AllContents fun s =>
    ∀ header path, (s.get name).header = some header → header.keying.keyPath = some path →
      path.IsTagFree → (s.get name).KeysInline path := by
  have hinline := (hasInlineKeys_of_isReachedFor h).isInline
  exact ⟨fun path header keyPath hheader => (hinline.stores path).keys header hheader keyPath,
    fun id s hs header keyPath hheader => (hinline.work id s hs).keys header hheader keyPath⟩

/-! ### A key that is generated into a mapping of its own -/

/-- A collection whose keys are generated into a mapping of each record, as the upgrade that makes it
obtains it. -/
def files : StoreRef := ⟨0, "files", ⟨some (.single "meta.id"), true⟩⟩

/-- An upgrade that makes the collection and stores two files, of which one has its key. -/
def filesStored : Engine :=
  initial
    |> (EngineCall.beginOpen "path" (.int 1) none).run.after
    |> (EngineCall.createCollection 0 (.text "files") (.text "meta.id") (.bool true)).run.after
    |> (EngineCall.add files (.dict [(.text "size", .int 5)]) .null).run.after
    |> (EngineCall.put files
      (.dict [(.text "size", .int 7), (.text "meta", .dict [(.text "id", .int 9)])]) .null).run.after
    |> (EngineCall.conclude (.upgrade 0 0 0 1) (.ok ())).run.after

/-- A query that makes files greater. -/
def growing : Query :=
  { Query.ofRange (.text "files") .null .null with
    state := .write, rule := some [(.text "size", .callable (.add (some "size") 1))] }

theorem isReachedFor_filesStored : filesStored.IsReachedFor "files" := by
  unfold filesStored
  refine .call (.call (.call (.call (.call .initial ?_) ?_) ?_) ?_) ?_
  case refine_3 => exact EngineCall.writesCurrently_of_isCurrentIn rfl (by decide +kernel) _
  case refine_4 => exact EngineCall.writesCurrently_of_isCurrentIn rfl (by decide +kernel) _
  all_goals exact EngineCall.writesCurrently_of_record rfl _ _

/-- After the query both files still have the keys that they are under. -/
theorem keysInline_filesStored :
    let e := (growing.run 0 .null).after filesStored
    e.IsReachedFor "files" ∧ ((e.store "path").contents.get "files").records.length = 2 ∧
      ((e.store "path").contents.get "files").KeysInline (.single "meta.id") := by
  intro e
  have hreached : e.IsReachedFor "files" := .query growing 0 .null isReachedFor_filesStored
  have hkeying : ((e.store "path").contents.get "files").header.map Header.keying =
      some files.keying := by decide +kernel
  obtain ⟨header, hheader, hpath⟩ := Option.map_eq_some_iff.1 hkeying
  have hsegments : KeyPath.segments "meta.id" = ["meta", "id"] := by decide +kernel
  have htagFree : (KeyPath.single "meta.id").IsTagFree := by
    intro s hs
    rw [hsegments, List.mem_cons, List.mem_singleton] at hs
    rcases hs with rfl | rfl <;>
      simp [Document.IsTag, Document.dateTag, Document.bytesTag, Document.setTag]
  refine ⟨hreached, by decide +kernel, ?_⟩
  exact (keysInline_of_isReachedFor hreached).stores "path" header _ hheader
    (congrArg Keying.keyPath hpath) htagFree

end Engine
end RecordStore
