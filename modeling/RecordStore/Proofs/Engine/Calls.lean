import RecordStore.Proofs.Engine.Access

/-!
Calls of the engine, each through whatever handles its caller names. A call is calm if it can only
read, end transactions without a commit, or change what no transaction sees; it keeps every stable
property.
-/

namespace RecordStore

/-- A call of the engine. -/
inductive EngineCall where
  | beginOpen (path : String) (version : Value) (callback : Option String)
  | conclude (o : Action.Opening) (result : Except Failure Unit)
  | close (connection : Nat)
  | deleteStore (path : String) (callback : Option String)
  | addListener (connection : Nat) (event : Value) (fails : Bool)
  | removeListener (connection : Nat) (event : Value) (serial : Nat)
  | openTransaction (connection : Nat) (collections mode : Value)
  | begin (tx : Nat)
  | commit (tx : Nat)
  | abort (tx : Nat) (error : Option String)
  | collectionNames (tx : Nat)
  | openCollection (tx : Nat) (name : Value)
  | createCollection (tx : Nat) (name keyPath autoIncrement : Value)
  | deleteCollection (tx : Nat) (name : Value)
  | openIndex (r : StoreRef) (name : Value)
  | createIndex (r : StoreRef) (name keyPath unique multiEntry : Value)
  | deleteIndex (r : StoreRef) (name : Value)
  | add (r : StoreRef) (value key : Value)
  | put (r : StoreRef) (value key : Value)
  | delete (r : StoreRef) (query : Value)
  | clear (r : StoreRef)
  | get (r : StoreRef) (query : Value)
  | count (r : StoreRef) (source : Option String) (query : Value)
  | indexGet (i : IndexRef) (query : Value)
  | indexGetKey (i : IndexRef) (query : Value)
  | startCursor (r : StoreRef) (source : Option String) (query direction : Value) (keyOnly : Bool)
  | stepCursor (c : CursorRef) (steps : Nat)
  | updateCursor (c : CursorRef) (value : Value)
  | deleteAtCursor (c : CursorRef)

namespace EngineCall

/-- A call that obtains no handle of a collection. -/
def obtainsNone {α : Type} (a : Action α) : Action (Option StoreRef) := do
  let _ ← a
  return none

/-- What a call does, and the handle of a collection that it obtains. -/
def run : EngineCall → Action (Option StoreRef)
  | beginOpen path version callback => obtainsNone (Action.beginOpen path version callback)
  | conclude o result => obtainsNone (o.conclude result)
  | close connection => obtainsNone (Action.close connection)
  | deleteStore path callback => obtainsNone (Action.deleteStore path callback)
  | addListener connection event fails => obtainsNone (Action.addListener connection event fails)
  | removeListener connection event serial =>
    obtainsNone (Action.removeListener connection event serial)
  | openTransaction connection collections mode =>
    obtainsNone (Action.openTransaction connection collections mode)
  | begin tx => obtainsNone (Action.begin tx)
  | commit tx => obtainsNone (Action.commit tx)
  | abort tx error => obtainsNone (Action.abort tx error)
  | collectionNames tx => obtainsNone (Action.collectionNames tx)
  | openCollection tx name => do return some (← Action.openCollection tx name)
  | createCollection tx name keyPath autoIncrement => do
    return some (← Action.createCollection tx name keyPath autoIncrement)
  | deleteCollection tx name => obtainsNone (Action.deleteCollection tx name)
  | openIndex r name => obtainsNone (r.openIndex name)
  | createIndex r name keyPath unique multiEntry =>
    obtainsNone (r.createIndex name keyPath unique multiEntry)
  | deleteIndex r name => obtainsNone (r.deleteIndex name)
  | add r value key => obtainsNone (r.add value key)
  | put r value key => obtainsNone (r.put value key)
  | delete r query => obtainsNone (r.delete query)
  | clear r => obtainsNone r.clear
  | get r query => obtainsNone (r.get query)
  | count r source query => obtainsNone (r.count source query)
  | indexGet i query => obtainsNone (i.get query)
  | indexGetKey i query => obtainsNone (i.getKey query)
  | startCursor r source query direction keyOnly =>
    obtainsNone (CursorRef.start r source query direction keyOnly)
  | stepCursor c steps => obtainsNone (c.step steps)
  | updateCursor c value => obtainsNone (c.update value)
  | deleteAtCursor c => obtainsNone c.delete

/-- The handle of a collection that a call goes through. -/
def handle? : EngineCall → Option StoreRef
  | openIndex r _ | createIndex r _ _ _ _ | deleteIndex r _ | add r _ _ | put r _ _ | delete r _
  | clear r | get r _ | count r _ _ | startCursor r _ _ _ _ => some r
  | indexGet i _ | indexGetKey i _ => some i.store
  | stepCursor c _ | updateCursor c _ | deleteAtCursor c => some c.store
  | _ => none

/-- The transaction that a call goes through, if it does not begin or end it. -/
def through? : EngineCall → Option Nat
  | collectionNames tx | openCollection tx _ | createCollection tx _ _ _
  | deleteCollection tx _ => some tx
  | c => c.handle?.map StoreRef.transaction

/-- The transaction that a call means to commit. -/
def commits? : EngineCall → Option Nat
  | commit tx => some tx
  | conclude (.upgrade _ tx _ _) (.ok ()) => some tx
  | _ => none

end EngineCall

namespace EngineCall

open Effect

variable {α : Type} {P Q E : Engine → Prop} {R : Option StoreRef → Engine → Prop}

/-- A call that changes no draft and keeps or forgets no store. -/
def isCalm : EngineCall → Bool
  | close _ | addListener _ _ _ | removeListener _ _ _ | openTransaction _ _ _ | abort _ _
  | collectionNames _ | openIndex _ _ | get _ _ | count _ _ _ | indexGet _ _ | indexGetKey _ _
  | startCursor _ _ _ _ _ | stepCursor _ _ | conclude (.current _) _ => true
  | _ => false

theorem meets_obtainsNone {a : Action α} {S : α → Engine → Prop} (ha : a.Meets P S E)
    (hR : ∀ x e, S x e → R none e) : (obtainsNone a).Meets P R E :=
  meets_bind ha fun x => meets_pure (hR x)

theorem after_obtainsNone {a : Action α} {e d : Engine} {r : Except Failure α} (ha : a e = ending r d) :
    (obtainsNone a).after e = d :=
  (meets_obtainsNone (leads_of_ending ha) fun _ _ hd => hd).after rfl

theorem keeps_obtainsNone {a : Action α} (ha : a.Keeps P) :
    (obtainsNone a).Ensures P fun r => r = none :=
  meets_obtainsNone ha fun _ _ he => ⟨he, rfl⟩

theorem keeps_run_of_isCalm (hP : Engine.IsStable P) {c : EngineCall} (hc : c.isCalm = true) :
    c.run.Ensures P fun r => r = none := by
  have hread (tx : Nat) : (Action.read tx).Keeps P := Action.keeps_read fun _ _ => hP.observed
  cases c with
  | conclude o result =>
      cases o with
      | current id => exact keeps_obtainsNone (Action.keeps_conclude_current hP id result)
      | upgrade id tx old new => cases hc
  | close connection => exact keeps_obtainsNone (Action.keeps_close hP connection)
  | addListener connection event fails =>
      exact keeps_obtainsNone (Action.keeps_addListener hP connection event fails)
  | removeListener connection event serial =>
      exact keeps_obtainsNone (Action.keeps_removeListener hP connection event serial)
  | openTransaction connection collections mode =>
      exact keeps_obtainsNone (Action.keeps_openTransaction hP connection collections mode)
  | abort tx error => exact keeps_obtainsNone (Action.keeps_abort hP tx error)
  | collectionNames tx => exact keeps_obtainsNone (Action.keeps_collectionNames (hread tx))
  | openIndex r name => exact keeps_obtainsNone (StoreRef.keeps_openIndex (hread _) name)
  | get r query => exact keeps_obtainsNone (StoreRef.keeps_get (hread _) query)
  | count r source query => exact keeps_obtainsNone (StoreRef.keeps_count (hread _) source query)
  | indexGet i query => exact keeps_obtainsNone (IndexRef.keeps_get (hread _) query)
  | indexGetKey i query => exact keeps_obtainsNone (IndexRef.keeps_getKey (hread _) query)
  | startCursor r source query direction keyOnly =>
      exact keeps_obtainsNone (CursorRef.keeps_start (hread _) source query direction keyOnly)
  | stepCursor c steps => exact keeps_obtainsNone (CursorRef.keeps_step (hread _) steps)
  | _ => cases hc

variable {tx : Nat}

/-- A call through a transaction keeps what its reads, its writes and the opening of collections
keep. -/
theorem keeps_run_of_through {c : EngineCall} (hc : c.through? = some tx)
    (hread : (Action.read tx).Keeps P) (hwrite : ∀ change, (Action.write tx change).Keeps P)
    (hopen : ∀ name, (Action.openCollection tx name).Keeps P) : c.run.Keeps P := by
  have hnone {α : Type} {a : Action α} (ha : a.Keeps P) : (obtainsNone a).Keeps P :=
    meets_obtainsNone ha fun _ _ he => he
  cases c with
  | collectionNames id =>
      cases hc
      exact hnone (Action.keeps_collectionNames hread)
  | openCollection id name =>
      cases hc
      exact keeps_bind (hopen name) fun _ => keeps_pure _
  | createCollection id name keyPath autoIncrement =>
      cases hc
      refine keeps_bind (Action.ensures_createCollection (T := fun _ => True) hread
        (fun _ _ _ => hwrite _) fun name => ?_).keeps fun _ => keeps_pure _
      exact (hopen _).imp (fun _ he => he) (fun _ _ he => ⟨he, trivial⟩) fun _ he => he
  | deleteCollection id name =>
      cases hc
      exact hnone (Action.meets_deleteCollection hread (hwrite _))
  | openIndex r name =>
      cases hc
      exact hnone (StoreRef.keeps_openIndex hread name)
  | createIndex r name keyPath unique multiEntry =>
      cases hc
      exact hnone (StoreRef.meets_createIndex (fun _ he => he) fun _ =>
        StoreRef.keeps_change hread hwrite)
  | deleteIndex r name =>
      cases hc
      exact hnone (StoreRef.keeps_deleteIndex hread (fun _ => StoreRef.keeps_change hread hwrite) name)
  | add r value key =>
      cases hc
      exact hnone (StoreRef.meets_write (StoreRef.keeps_change hread hwrite))
  | put r value key =>
      cases hc
      exact hnone (StoreRef.meets_write (StoreRef.keeps_change hread hwrite))
  | delete r query =>
      cases hc
      exact hnone (StoreRef.meets_delete fun _ _ => StoreRef.keeps_change hread hwrite)
  | clear r =>
      cases hc
      exact hnone (StoreRef.meets_clear (StoreRef.keeps_change hread hwrite))
  | get r query =>
      cases hc
      exact hnone (StoreRef.keeps_get hread query)
  | count r source query =>
      cases hc
      exact hnone (StoreRef.keeps_count hread source query)
  | indexGet i query =>
      cases hc
      exact hnone (IndexRef.keeps_get hread query)
  | indexGetKey i query =>
      cases hc
      exact hnone (IndexRef.keeps_getKey hread query)
  | startCursor r source query direction keyOnly =>
      cases hc
      exact hnone (CursorRef.keeps_start hread source query direction keyOnly)
  | stepCursor c steps =>
      cases hc
      exact hnone (CursorRef.keeps_step hread steps)
  | updateCursor c value =>
      cases hc
      exact hnone (CursorRef.meets_update (fun _ he => he) fun _ =>
        StoreRef.meets_write (StoreRef.keeps_change hread hwrite))
  | deleteAtCursor c =>
      cases hc
      exact hnone (CursorRef.meets_delete (fun _ he => he)
        (StoreRef.meets_delete fun _ _ => StoreRef.keeps_change hread hwrite))
  | _ => cases hc

/-- Every call keeps a stable property that is kept by writes, by the beginning of transactions and
by the keeping and forgetting of stores. -/
theorem keeps_run (hP : Engine.IsStable P)
    (hwrite : ∀ tx change, (Action.write tx change).Keeps P)
    (hbegun : ∀ e tx, P e → e.IsReady tx → P (e.begun tx))
    (hkeep : ∀ e path s, P e → P (e.keep path s)) (hforget : ∀ e path, P e → P (e.forget path))
    (c : EngineCall) : c.run.Keeps P := by
  have hread (tx : Nat) : (Action.read tx).Keeps P := Action.keeps_read fun _ _ => hP.observed
  have hopen (tx : Nat) (name : Value) : (Action.openCollection tx name).Keeps P :=
    (Action.ensures_openCollection (S := fun _ => True) (T := fun _ => True) hP
      ((hread tx).imp (fun _ he => he) (fun _ _ he => ⟨he, trivial⟩) fun _ he => he)
      (fun _ _ _ _ _ => trivial) name).keeps
  have hcommit (tx : Nat) : (Action.commit tx).Keeps P :=
    Action.meets_commit hP hP (fun _ he => he) (fun _ _ he _ _ _ => hkeep _ _ _ he) fun _ he _ => he
  have hnone {α : Type} {a : Action α} (ha : a.Keeps P) : (obtainsNone a).Keeps P :=
    meets_obtainsNone ha fun _ _ he => he
  by_cases hcalm : c.isCalm = true
  · exact (keeps_run_of_isCalm hP hcalm).keeps
  cases hthrough : c.through? with
  | some tx => exact keeps_run_of_through hthrough (hread tx) (hwrite tx) (hopen tx)
  | none =>
      cases c with
      | beginOpen path version callback =>
          exact hnone (Action.keeps_beginOpen hP hbegun path version callback)
      | conclude o result =>
          cases o with
          | current id => exact absurd rfl hcalm
          | upgrade id tx old new =>
              exact hnone (Action.meets_conclude_upgrade hP hP (fun _ he => he) (hwrite tx _)
                fun _ => hcommit tx)
      | deleteStore path callback =>
          exact hnone (Action.meets_deleteStore hP fun _ he => hforget _ _ he)
      | begin tx => exact hnone (Action.meets_begin hP (fun _ he => he) fun _ he => hbegun _ tx he)
      | commit tx => exact hnone (hcommit tx)
      | close _ | addListener _ _ _ | removeListener _ _ _ | openTransaction _ _ _ | abort _ _ =>
          exact absurd rfl hcalm
      | _ => cases hthrough

end EngineCall

/-! ### States that calls lead to -/

namespace Engine

/-- The state after calls, whether they succeed or fail. -/
def afterCalls (e : Engine) (calls : List EngineCall) : Engine :=
  calls.foldl (fun e c => c.run.after e) e

/-- A state that some calls lead to. -/
inductive IsReachable : Engine → Prop
  | initial : IsReachable initial
  | next {e : Engine} (c : EngineCall) : e.IsReachable → (c.run.after e).IsReachable

theorem isReachable_afterCalls {e : Engine} (h : e.IsReachable) (calls : List EngineCall) :
    (e.afterCalls calls).IsReachable := by
  induction calls generalizing e with
  | nil => exact h
  | cons c rest ih => exact ih (h.next c)

end Engine
end RecordStore
