import RecordStore.Proofs.Collection.History
import RecordStore.Proofs.Engine.Changes
import RecordStore.Proofs.Engine.Order

/-!
The annals of a run: how the contents of each store came about. A store that is kept has a history,
and so has what a connection has under way. A transaction that begins goes on from the history of
the store that is kept; each call through it adds what it changes; a commit makes its history that
of the store, and when it ends otherwise its history is lost.
-/

namespace RecordStore

/-- The store that is under way: a draft, or what was seen. -/
def Work.store? : Work → Option Store
  | .idle => none
  | .reading seen => seen
  | .writing draft => some draft

namespace Engine

/-- All contents are what histories lead to: those of the stores that are kept, and those that
connections have under way. -/
structure Follows (e : Engine) (kept : String → History) (work : Nat → History) : Prop where
  stores : ∀ path, (e.store path).contents = (kept path).contents
  underWay : ∀ id s, (e.connection id).work.store? = some s → s.contents = (work id).contents

/-- A connection that reads and has not seen anything yet will see what is kept. -/
structure Continues (e : Engine) (kept : String → History) (work : Nat → History) : Prop
    extends e.Follows kept work where
  unseen : ∀ id, (e.connection id).work = .reading none → work id = kept (e.connection id).path

variable {e d : Engine} {kept : String → History} {work : Nat → History} {id tx : Nat}
  {c : Connection} {path : String} {s : Store} {h : History}

/-- Only the stores that are kept and the connections count. -/
theorem Follows.congr (he : e.Follows kept work) (hs : d.stores = e.stores)
    (hc : d.connections = e.connections) : d.Follows kept work where
  stores path := by
    rw [store, hs]
    exact he.stores path
  underWay id s hw := by
    rw [connection_congr hc] at hw
    exact he.underWay id s hw

theorem follows_setConnection (he : e.Follows kept work)
    (hc : ∀ s, c.work.store? = some s → s.contents = (work id).contents) :
    (e.setConnection id c).Follows kept work where
  stores := he.stores
  underWay other s hw := by
    rcases connection_setConnection e id c other with heq | ⟨rfl, heq⟩
    · rw [heq] at hw
      exact he.underWay other s hw
    · rw [heq] at hw
      exact hc s hw

/-- Another draft of a transaction, with the history that leads to it. -/
theorem follows_redraft (he : e.Follows kept work) (hdraft : e.draft? tx = some s) {s' : Store}
    (hs : s'.contents = h.contents) : (e.redraft tx s').Follows kept
      (Function.update work (e.transaction tx).connection h) where
  stores := he.stores
  underWay id t hw := by
    by_cases hid : id = (e.transaction tx).connection
    · subst hid
      have hself := connection_rework_self (draft?_eq_some_iff.1 hdraft) (.writing s')
      rw [redraft, hself] at hw
      cases hw
      rw [Function.update_self]
      exact hs
    · rw [Function.update_of_ne hid]
      exact he.underWay id t (connection_setConnection_of_ne hid ▸ hw)

theorem follows_keep (he : e.Follows kept work) (hs : s.contents = h.contents) :
    (e.keep path s).Follows (Function.update kept path h) work where
  stores other := by
    by_cases ho : other = path
    · rw [ho, store_keep_self, Function.update_self]
      exact hs
    · rw [store_keep_of_ne ho, Function.update_of_ne ho]
      exact he.stores other
  underWay := he.underWay

theorem follows_forget (he : e.Follows kept work) :
    (e.forget path).Follows (Function.update kept path []) work where
  stores other := by
    rw [store_forget]
    by_cases ho : other = path
    · rw [if_pos ho, ho, Function.update_self]
      rfl
    · rw [if_neg ho, Function.update_of_ne ho]
      exact he.stores other
  underWay := he.underWay

theorem follows_ended (he : e.Follows kept work) (tx : Nat) : (e.ended tx).Follows kept work :=
  follows_setConnection (he.congr rfl rfl) nofun

/-- A transaction begins with what is kept. -/
theorem follows_begun (he : e.Follows kept work) (hbase : work (e.transaction tx).connection =
    kept (e.connection (e.transaction tx).connection).path) : (e.begun tx).Follows kept work := by
  refine (follows_setConnection he fun s hs => ?_).congr rfl rfl
  dsimp only at hs
  split at hs
  · cases hs
  · cases hs
    rw [hbase]
    exact he.stores _

theorem continues_setConnection (he : e.Continues kept work)
    (hc : ∀ s, c.work.store? = some s → s.contents = (work id).contents)
    (hunseen : c.work = .reading none → work id = kept c.path) :
    (e.setConnection id c).Continues kept work := by
  refine ⟨follows_setConnection he.toFollows hc, fun other ho => ?_⟩
  rcases connection_setConnection e id c other with heq | ⟨rfl, heq⟩
  · rw [heq] at ho ⊢
    exact he.unseen other ho
  · rw [heq] at ho ⊢
    exact hunseen ho

theorem isStable_continues (kept : String → History) (work : Nat → History) :
    IsStable fun e => e.Continues kept work where
  congr he hs hc _ := ⟨he.congr hs hc, by simp only [connection, hc]; exact he.unseen⟩
  connect {e path version} he := by
    have hconnection (id : Nat) : ({ e with connections := e.connections ++
        [⟨path, version, false, [], [], .idle⟩] } : Engine).connection id = e.connection id ∨
          (({ e with connections := e.connections ++ [⟨path, version, false, [], [], .idle⟩] } :
            Engine).connection id).work = .idle := by
      rw [connection, connection, List.getElem?_append]
      split
      · exact .inl rfl
      · rw [List.getElem?_singleton]
        split
        · exact .inr rfl
        · exact .inr rfl
    refine ⟨⟨he.stores, fun id s hw => ?_⟩, fun id hw => ?_⟩
    · rcases hconnection id with heq | hidle
      · exact he.underWay id s (heq ▸ hw)
      · rw [hidle] at hw
        cases hw
    · rcases hconnection id with heq | hidle
      · rw [heq] at hw ⊢
        exact he.unseen id hw
      · rw [hidle] at hw
        cases hw
  setConnection he hp _ _ hw :=
    continues_setConnection he (hw ▸ he.underWay _) fun hnone => hp ▸ he.unseen _ (hw ▸ hnone)
  observed {e id} he hw := by
    refine continues_setConnection he ?_ (by rintro ⟨⟩)
    rintro _ ⟨⟩
    rw [he.unseen id hw]
    exact he.stores _
  close he := continues_setConnection he (by rintro _ ⟨⟩) (by rintro ⟨⟩)
  make he := ⟨he.congr rfl rfl, he.unseen⟩
  setTransaction he _ _ _ _ := ⟨he.congr rfl rfl, he.unseen⟩
  ended he _ :=
    continues_setConnection ⟨he.congr rfl rfl, he.unseen⟩ (by rintro _ ⟨⟩) (by rintro ⟨⟩)

end Engine

/-- Who has a draft may write. -/
theorem Engine.IsOrderly.mode_ne_readonly {e : Engine} {tx : Nat} {s : Store} (he : e.IsOrderly)
    (h : e.draft? tx = some s) : (e.transaction tx).mode ≠ .readonly := by
  obtain ⟨hactive, hopen, hwork⟩ := draft?_eq_some_iff.1 h
  have hsuits := he.suits tx hactive hopen
  rw [hwork] at hsuits
  exact hsuits

theorem History.contents_toList_append (change : Option (String × Change)) (h : History) :
    contents (change.toList ++ h) = h.contents.changed change := by
  cases change with
  | none => rfl
  | some change => rfl

/-! ### Runs -/

/-- How far a run has come: the state of the engine, the histories of the stores that are kept, and
those of what connections have under way. -/
structure Annals where
  engine : Engine
  kept : String → History
  work : Nat → History

namespace Annals

def initial : Annals := ⟨.initial, fun _ => [], fun _ => []⟩

/-- The history of what a connection works with: what it has under way, or else the store that is
kept under its path. -/
def history (t : Annals) (id : Nat) : History :=
  match (t.engine.connection id).work.store? with
  | some _ => t.work id
  | none => t.kept (t.engine.connection id).path

/-- The connection of a transaction. -/
def worker (t : Annals) (tx : Nat) : Nat := (t.engine.transaction tx).connection

/-- The histories of the stores after a call: a draft that is committed brings its own. -/
def keptAfter (t : Annals) (c : EngineCall) : String → History :=
  match c with
  | .deleteStore path callback =>
    match Action.deleteStore path callback t.engine with
    | .ok _ _ => Function.update t.kept path []
    | .error _ _ => t.kept
  | _ =>
    match c.commits? with
    | none => t.kept
    | some tx =>
      match t.engine.draft? tx with
      | none => t.kept
      | some _ =>
        Function.update t.kept (t.engine.connection (t.worker tx)).path (t.history (t.worker tx))

/-- The histories of what is under way once one more connection is made for a path. -/
def opening (t : Annals) (path : String) : Nat → History :=
  Function.update t.history t.engine.connections.length (t.kept path)

/-- The histories of what is under way after a call: one through a transaction with a draft adds what
it changes. -/
def workAfter (t : Annals) (c : EngineCall) : Nat → History :=
  match c with
  | .beginOpen path _ _ => t.opening path
  | _ =>
    match c.through? with
    | none => t.history
    | some tx =>
      match t.engine.draft? tx with
      | none => t.history
      | some s => Function.update t.history (t.worker tx)
          ((c.change? (t.engine.transaction tx).mode s.contents).toList ++ t.history (t.worker tx))

/-- The run after one more call. -/
def next (t : Annals) (c : EngineCall) : Annals :=
  ⟨c.run.after t.engine, t.keptAfter c, t.workAfter c⟩

end Annals

namespace Annals

open Effect

variable {t : Annals} {c : EngineCall} {tx : Nat} {s : Store}

/-- The contents are what the annals say. -/
abbrev IsTrue (t : Annals) : Prop := t.engine.Follows t.kept t.work

theorem history_of_draft (hdraft : t.engine.draft? tx = some s) :
    t.history (t.worker tx) = t.work (t.worker tx) := by
  unfold history worker
  rw [(Engine.draft?_eq_some_iff.1 hdraft).work]
  rfl

theorem IsTrue.contents (ht : t.IsTrue) (hdraft : t.engine.draft? tx = some s) :
    s.contents = (t.history (t.worker tx)).contents := by
  rw [history_of_draft hdraft]
  refine ht.underWay _ s ?_
  unfold worker
  rw [(Engine.draft?_eq_some_iff.1 hdraft).work]
  rfl

theorem continues (ht : t.IsTrue) : t.engine.Continues t.kept t.history where
  stores := ht.stores
  underWay id s hw := by
    unfold history
    rw [hw]
    exact ht.underWay id s hw
  unseen id hw := by
    unfold history
    rw [hw]
    rfl

/-! ### One call -/

section Through

variable (hc : c.through? = some tx)

include hc

theorem keptAfter_of_through : t.keptAfter c = t.kept := by
  cases c with
  | _ => first | rfl | cases hc

theorem workAfter_of_no_draft (hdraft : t.engine.draft? tx = none) : t.workAfter c = t.history := by
  cases c with
  | beginOpen _ _ _ => cases hc
  | _ => unfold workAfter; rw [hc]; dsimp only; rw [hdraft]

theorem workAfter_of_draft (hdraft : t.engine.draft? tx = some s) : t.workAfter c =
    Function.update t.history (t.worker tx)
      ((c.change? (t.engine.transaction tx).mode s.contents).toList ++ t.history (t.worker tx)) := by
  cases c with
  | beginOpen _ _ _ => cases hc
  | _ => unfold workAfter; rw [hc]; dsimp only; rw [hdraft]

/-- A call through a transaction changes its draft as it says, and nothing without one. -/
theorem meets_through (ht : t.IsTrue) (horderly : t.engine.IsOrderly) : c.run.Meets (· = t.engine)
    (fun _ d => d.Follows (t.keptAfter c) (t.workAfter c))
    (fun d => d.Follows (t.keptAfter c) (t.workAfter c)) := by
  rw [keptAfter_of_through hc]
  cases hdraft : t.engine.draft? tx with
  | none =>
      rw [workAfter_of_no_draft hc hdraft]
      refine (EngineCall.keeps_run_of_no_draft hc
        (Engine.isStable_continues t.kept t.history)).imp ?_
        (fun _ _ hd => hd.1.toFollows) fun _ hd => hd.1.toFollows
      rintro _ rfl
      exact ⟨continues ht, hdraft⟩
  | some s =>
      rw [workAfter_of_draft hc hdraft]
      have hfollows {d : Engine} (hd : Action.HasChanged t.engine tx s
          (c.change? (t.engine.transaction tx).mode s.contents) d) : d.Follows t.kept
            (Function.update t.history (t.worker tx)
              ((c.change? (t.engine.transaction tx).mode s.contents).toList ++
                t.history (t.worker tx))) := by
        obtain ⟨scope, rfl, _⟩ := hd.eq
        refine (Engine.follows_redraft (continues ht).toFollows hdraft ?_).congr rfl rfl
        rw [History.contents_toList_append, ← ht.contents hdraft]
        rfl
      exact (EngineCall.meets_run_of_draft hc hdraft (horderly.mode_ne_readonly hdraft)).imp
        (fun _ hd => hd) (fun _ _ hd => hfollows hd.1) fun _ hd => hfollows hd

end Through

theorem follows_begun (ht : t.IsTrue) (hidle : (t.engine.connection (t.worker tx)).work = .idle) :
    (t.engine.begun tx).Follows t.kept t.history := by
  refine Engine.follows_begun (continues ht).toFollows ?_
  unfold history
  rw [worker] at hidle
  rw [hidle]
  rfl

theorem meets_begin (ht : t.IsTrue) (tx : Nat) : (Action.begin tx).Meets (· = t.engine)
    (fun _ d => d.Follows t.kept t.history) (fun d => d.Follows t.kept t.history) := by
  refine (Action.meets_begin (Engine.isStable_continues t.kept t.history) ?_ ?_).imp_error
    fun _ hd => hd.toFollows
  · rintro _ rfl
    exact continues ht
  · rintro _ rfl hready
    exact follows_begun ht hready.idle

/-- An upgrade that begins goes on from the store that is kept. -/
theorem meets_beginOpen (ht : t.IsTrue) (path : String) (version : Value) (callback : Option String) :
    (Action.beginOpen path version callback).Meets (· = t.engine)
      (fun _ d => d.Follows t.kept (t.opening path)) (fun d => d.Follows t.kept (t.opening path)) := by
  have hnew : (t.engine.connection t.engine.connections.length).work = .idle := by
    rw [Engine.connection, List.getElem?_eq_none le_rfl]
    rfl
  have hold {id : Nat} (hw : (t.engine.connection id).work ≠ .idle) :
      t.opening path id = t.history id :=
    Function.update_of_ne (fun hid => hw (by rw [hid]; exact hnew)) _ _
  have hstart : t.engine.Continues t.kept (t.opening path) := by
    refine ⟨⟨ht.stores, fun id s hw => ?_⟩, fun id hw => ?_⟩
    · rw [hold fun hidle => by rw [hidle] at hw; cases hw]
      exact (continues ht).underWay id s hw
    · rw [hold fun hidle => by rw [hidle] at hw; cases hw]
      exact (continues ht).unseen id hw
  refine (Action.meets_beginOpen (n := t.engine.connections.length)
    (R := fun d => d.Follows t.kept (t.opening path)) (Engine.isStable_continues t.kept _) ?_).imp ?_
    (fun o d hd => ?_) fun _ hd => hd.toFollows
  · intro e tx he _ hn hpath
    refine Engine.follows_begun he.toFollows ?_
    rw [hn, hpath]
    exact Function.update_self _ _ _
  · rintro _ rfl
    exact ⟨hstart, rfl⟩
  · cases o with
    | current id => exact hd.toFollows
    | upgrade id tx old new => exact hd

/-! ### Commits -/

section Commits

variable (hc : c.commits? = some tx)

include hc

theorem keptAfter_of_no_draft (hdraft : t.engine.draft? tx = none) : t.keptAfter c = t.kept := by
  cases c with
  | deleteStore _ _ => cases hc
  | _ => unfold keptAfter; rw [hc]; dsimp only; rw [hdraft]

theorem keptAfter_of_draft (hdraft : t.engine.draft? tx = some s) : t.keptAfter c =
    Function.update t.kept (t.engine.connection (t.worker tx)).path (t.history (t.worker tx)) := by
  cases c with
  | deleteStore _ _ => cases hc
  | _ => unfold keptAfter; rw [hc]; dsimp only; rw [hdraft]

end Commits

/-- A draft that is kept brings its history. -/
theorem follows_commit {kept : String → History} {work : Nat → History} {e : Engine} {h : History}
    (he : e.Follows kept work) (hs : s.contents = h.contents) :
    ((e.keep (e.connection (e.transaction tx).connection).path s).ended tx).Follows
      (Function.update kept (e.connection (e.transaction tx).connection).path h) work :=
  Engine.follows_ended (Engine.follows_keep he hs) tx

theorem meets_commit (ht : t.IsTrue) (tx : Nat) : (Action.commit tx).Meets (· = t.engine)
    (fun _ d => d.Follows (t.keptAfter (.commit tx)) t.history)
    (fun d => d.Follows (t.keptAfter (.commit tx)) t.history) := by
  cases hdraft : t.engine.draft? tx with
  | none =>
      rw [keptAfter_of_no_draft rfl hdraft]
      refine (Action.keeps_commit_of_no_draft (Engine.isStable_continues t.kept t.history) tx).imp ?_
        (fun _ _ hd => hd.toFollows) fun _ hd => hd.toFollows
      rintro _ rfl
      exact ⟨continues ht, hdraft⟩
  | some s =>
      rw [keptAfter_of_draft rfl hdraft]
      refine meets_of_ending (r := .ok ())
        (Action.commit_run (Engine.draft?_eq_some_iff.1 hdraft)) (fun _ _ => ?_) nofun
      exact follows_commit (continues ht).toFollows (ht.contents hdraft)

theorem keeps_finishOpen (kept : String → History) (work : Nat → History) (id : Nat) :
    (Action.finishOpen id).Keeps fun e => e.Follows kept work := by
  intro e he
  have hset : (e.setConnection id { e.connection id with
      collectionNames := (e.store (e.connection id).path).contents.names }).Follows kept work :=
    Engine.follows_setConnection he fun s hs => he.underWay id s hs
  exact hset.congr rfl rfl

/-- An upgrade that is concluded sets the version and is committed, if it has not failed. -/
theorem meets_conclude (ht : t.IsTrue) (id old new : Nat) (result : Except Failure Unit) :
    (Action.Opening.conclude (.upgrade id tx old new) result).Meets (· = t.engine)
      (fun _ d => d.Follows (t.keptAfter (.conclude (.upgrade id tx old new) result)) t.history)
      (fun d => d.Follows (t.keptAfter (.conclude (.upgrade id tx old new) result)) t.history) := by
  have hstable := Engine.isStable_continues t.kept t.history
  cases result with
  | error f =>
      refine meets_bind_of_ok (attempt_of_ending (r := .error f) rfl) ?_
      refine meets_bind (Q := fun _ e => e.Continues t.kept t.history) ?_ fun _ =>
        meets_throw f fun _ hd => hd.toFollows
      refine (Action.keeps_abandon hstable id tx f.className).imp ?_ (fun _ _ hd => hd)
        fun _ hd => hd.toFollows
      rintro _ rfl
      exact continues ht
  | ok u =>
      cases hdraft : t.engine.draft? tx with
      | none =>
          rw [keptAfter_of_no_draft rfl hdraft]
          have hnone := Engine.isStable_draft?_eq_none tx
          refine (Action.meets_conclude_upgrade
            (P := fun e => e.Continues t.kept t.history ∧ e.draft? tx = none) hstable hstable
            (fun _ he => he.1) (meets_of_each fun e he => ?_) fun _ =>
              Action.keeps_commit_of_no_draft hstable tx).imp ?_ (fun _ _ hd => hd.toFollows)
            fun _ hd => hd.toFollows
          · exact (Action.leads_write_of_no_draft he.2 _).imp (fun _ hd => hd) (fun _ _ hd => hd ▸ he)
              fun _ hd => hd ▸ he
          · rintro _ rfl
            exact ⟨continues ht, hdraft⟩
      | some s =>
          rw [keptAfter_of_draft rfl hdraft]
          have hset := Action.write_of_draft hdraft fun s => { s with version := new }
          refine meets_bind_of_ok (attempt_of_ending (r := .ok ()) hset) ?_
          have hredraft := Engine.draft?_redraft hdraft { s with version := new }
          refine meets_bind_of_ok (Action.commit_run (Engine.draft?_eq_some_iff.1 hredraft)) ?_
          refine meets_bind ((keeps_finishOpen _ _ id).imp ?_ (fun _ _ hd => hd) fun _ hd => hd)
            fun _ => meets_pure fun _ hd => hd
          rintro _ rfl
          have hs : ({ s with version := new } : Store).contents =
            (t.history (t.worker tx)).contents := IsTrue.contents (s := s) ht hdraft
          have hredrafted := Engine.follows_redraft (continues ht).toFollows hdraft hs
          rw [← worker, Function.update_eq_self] at hredrafted
          have hpath := congrArg Connection.path (Engine.connection_rework_self
            (Engine.draft?_eq_some_iff.1 hdraft) (.writing { s with version := new }))
          exact hpath ▸ follows_commit hredrafted hs

/-- A store that is deleted has no history any more. -/
theorem meets_deleteStore (ht : t.IsTrue) (path : String) (callback : Option String) :
    (Action.deleteStore path callback).Meets (· = t.engine)
      (fun _ d => d.Follows (t.keptAfter (.deleteStore path callback)) t.history)
      (fun d => d.Follows (t.keptAfter (.deleteStore path callback)) t.history) := by
  have hmeets : (Action.deleteStore path callback).Meets (· = t.engine)
      (fun _ d => d.Follows (Function.update t.kept path []) t.history)
      (fun d => d.Continues t.kept t.history) := by
    refine (Action.meets_deleteStore (Engine.isStable_continues t.kept t.history)
      fun _ hd => Engine.follows_forget hd.toFollows).imp ?_ (fun _ _ hd => hd) fun _ hd => hd
    rintro _ rfl
    exact continues ht
  rintro _ rfl
  have hrun := hmeets t.engine rfl
  cases hdelete : Action.deleteStore path callback t.engine with
  | ok old d =>
      rw [hdelete] at hrun
      simp only [keptAfter, hdelete]
      exact hrun
  | error f d =>
      rw [hdelete] at hrun
      simp only [keptAfter, hdelete]
      exact hrun.toFollows

/-- A calm call that is not made through a transaction leaves all histories as they are. -/
theorem meets_calm (ht : t.IsTrue) (hcalm : c.isCalm = true) : c.run.Meets (· = t.engine)
    (fun _ d => d.Follows t.kept t.history) (fun d => d.Follows t.kept t.history) := by
  refine (EngineCall.keeps_run_of_isCalm
    (Engine.isStable_continues t.kept t.history) hcalm).keeps.imp ?_
    (fun _ _ hd => hd.toFollows) fun _ hd => hd.toFollows
  rintro _ rfl
  exact continues ht

/-- The annals stay true. -/
theorem meets_run (ht : t.IsTrue) (horderly : t.engine.IsOrderly) (c : EngineCall) :
    c.run.Meets (· = t.engine) (fun _ d => d.Follows (t.keptAfter c) (t.workAfter c))
      (fun d => d.Follows (t.keptAfter c) (t.workAfter c)) := by
  have hnone {α : Type} {a : Action α} {P Q : Engine → Prop} (ha : a.Meets P (fun _ => Q) Q) :
      (EngineCall.obtainsNone a).Meets P (fun _ => Q) Q :=
    EngineCall.meets_obtainsNone ha fun _ _ he => he
  cases hthrough : c.through? with
  | some tx => exact meets_through hthrough ht horderly
  | none =>
      cases c with
      | beginOpen path version callback => exact hnone (meets_beginOpen ht path version callback)
      | conclude o result =>
          cases o with
          | current id => exact meets_calm (c := .conclude (.current id) result) ht rfl
          | upgrade id tx old new =>
              have hwork : t.workAfter (.conclude (.upgrade id tx old new) result) = t.history := rfl
              rw [hwork]
              exact hnone (meets_conclude ht id old new result)
      | deleteStore path callback => exact hnone (meets_deleteStore ht path callback)
      | begin tx => exact hnone (meets_begin ht tx)
      | commit tx => exact hnone (meets_commit ht tx)
      | close id => exact meets_calm (c := .close id) ht rfl
      | addListener id event fails => exact meets_calm (c := .addListener id event fails) ht rfl
      | removeListener id event serial =>
          exact meets_calm (c := .removeListener id event serial) ht rfl
      | openTransaction id names mode => exact meets_calm (c := .openTransaction id names mode) ht rfl
      | abort tx error => exact meets_calm (c := .abort tx error) ht rfl
      | _ => cases hthrough

theorem isTrue_initial : initial.IsTrue where
  stores _ := rfl
  underWay _ _ hw := nomatch hw

theorem isTrue_next (ht : t.IsTrue) (horderly : t.engine.IsOrderly) (c : EngineCall) :
    (t.next c).IsTrue :=
  Meets.after (meets_run ht horderly c) rfl

end Annals

end RecordStore
