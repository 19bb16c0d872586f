import RecordStore.Proofs.Engine.Annals
import RecordStore.Proofs.Engine.Listeners

/-!
Who writes to a path. A transaction begins to write only where nobody else does, so that a path has one
draft at most, of no lower version than its store. A call that is no deletion lowers no version, and after
one that raises a version nobody writes to the path.
-/

namespace RecordStore

open Effect

/-- A call that neither commits a transaction nor deletes a store. -/
def EngineCall.storesNothing : EngineCall → Bool
  | deleteStore _ _ => false
  | c => c.commits?.isNone

namespace Engine

/-! ### Properties that do not depend on what drafts hold -/

/-- A stable property that is kept as transactions begin, and does not depend on what drafts hold. -/
structure IsKeptByDrafting (P : Engine → Prop) : Prop extends IsStable P where
  redraft {e : Engine} {tx : Nat} {s : Store} {k : Contents} : P e → e.draft? tx = some s →
    P (e.redraft tx { s with contents := k })
  begun {e : Engine} {tx : Nat} : P e → e.IsReady tx → P (e.begun tx)

theorem IsStable.joined {P : Engine → Prop} (hP : IsStable P) {e : Engine} (he : P e) (id : Nat) :
    P (e.joined id) := by
  have hnamed : P (e.setConnection id { e.connection id with
      collectionNames := (e.store (e.connection id).path).contents.names }) :=
    hP.setConnection he rfl rfl rfl rfl
  exact hP.congr hnamed rfl rfl rfl

theorem isStable_stores (F : List (String × Store) → Prop) : IsStable fun e => F e.stores := by
  constructor
  case congr => exact fun h hs _ _ => hs ▸ h
  all_goals intros; assumption

theorem isKeptByDrafting_stores (F : List (String × Store) → Prop) :
    IsKeptByDrafting fun e => F e.stores :=
  { isStable_stores F with redraft := fun h _ => h, begun := fun h _ => h }

end Engine

namespace Action

variable {P : Engine → Prop} {id tx old new : Nat}

/-- An upgrade that has failed is given up, and its opening fails. -/
theorem meets_conclude_of_error {f : Failure} (habandon : (abandon id tx f.className).Keeps P) :
    (Opening.conclude (.upgrade id tx old new) (.error f)).Meets P (fun _ _ => False) P := by
  have hattempt : (attempt (do
      ofExcept (.error f)
      write tx fun s => { s with version := new })).Meets P (fun r e => P e ∧ r = .error f) P :=
    fun _ he => ⟨he, rfl⟩
  refine ensures_bind hattempt fun r hr => ?_
  subst hr
  exact keeps_bind habandon fun _ => keeps_throw f

/-- So does an upgrade whose transaction has no draft any more. -/
theorem meets_conclude_of_no_draft (habandon : ∀ error, (abandon id tx error).Keeps P) {e : Engine}
    (he : P e) (horderly : e.IsOrderly) (hmode : (e.transaction tx).mode ≠ .readonly)
    (hs : e.draft? tx = none) (result : Except Failure Unit) :
    (Opening.conclude (.upgrade id tx old new) result).Meets (· = e) (fun _ _ => False) P := by
  cases result with
  | error f =>
      exact (meets_conclude_of_error (habandon f.className)).imp (fun _ hd => hd ▸ he) (fun _ _ h => h)
        fun _ h => h
  | ok u =>
      -- who is active on an open connection has a draft, so that the version cannot be set
      have hwrite : (write tx fun s => { s with version := new }).Meets (· = e) (fun _ _ => False)
          (· = e) := by
        refine meets_ensureActive_bind rfl fun t ht hactive => ?_
        refine meets_statement_bind rfl fun c hc hopen => ?_
        subst ht hc
        have hsuits := horderly.suits tx hactive hopen
        cases hwork : (e.connection (e.transaction tx).connection).work with
        | writing s =>
            rw [Engine.draft?_eq_some_iff.2 ⟨hactive, hopen, hwork⟩] at hs
            cases hs
        | idle =>
            rw [hwork] at hsuits
            exact hsuits.elim
        | reading seen =>
            rw [hwork] at hsuits
            exact absurd hsuits hmode
      have hattempt : (attempt (do
          ofExcept (.ok u)
          write tx fun s => { s with version := new })).Meets (· = e) (fun r d => d = e ∧ ∃ f, r = .error f)
          P := by
        refine meets_tryCatch (F := (· = e)) ?_ fun f => meets_pure fun _ hd => ⟨hd, f, rfl⟩
        exact meets_bind hwrite fun _ _ h => h.elim
      refine ensures_bind hattempt fun r hr => ?_
      obtain ⟨f, rfl⟩ := hr
      refine meets_bind (Q := fun _ => P) ?_ fun _ => keeps_throw f
      exact (habandon f.className).imp (fun _ hd => hd ▸ he) (fun _ _ h => h) fun _ h => h

/-- An upgrade is concluded with its draft and the version, or it is given up. -/
theorem conclude_cases {e : Engine} {result : Except Failure Unit}
    (habandon : ∀ error, (abandon id tx error).Keeps P) (he : P e) (horderly : e.IsOrderly)
    (hmode : (e.transaction tx).mode ≠ .readonly) :
    (∃ s, e.draft? tx = some s ∧ Opening.conclude (.upgrade id tx old new) result e =
      .ok id ((e.committed tx { s with version := new }).joined id)) ∨
    ∃ f d, Opening.conclude (.upgrade id tx old new) result e = .error f d ∧ P d := by
  cases hs : e.draft? tx with
  | none => exact .inr ((meets_conclude_of_no_draft habandon he horderly hmode hs result).exists_error rfl)
  | some s =>
      cases result with
      | ok u => exact .inl ⟨s, rfl, conclude_run_of_draft hs id old new⟩
      | error f => exact .inr ((meets_conclude_of_error (habandon f.className)).exists_error he)

end Action

namespace EngineCall

open Engine (IsKeptByDrafting IsOrderly)

variable {P : Engine → Prop} {c : EngineCall} {tx : Nat}

theorem keeps_run_through (hP : IsKeptByDrafting P) (hc : c.through? = some tx) :
    c.run.Keeps fun e => P e ∧ e.IsOrderly := by
  refine meets_of_each fun e ⟨he, horderly⟩ => ?_
  have hafter : (c.run.after e).IsOrderly := c.isOrderly_run.after horderly
  suffices hkeeps : P (c.run.after e) by
    obtain ⟨r, hr⟩ := exists_ending c.run e
    exact meets_of_ending hr (fun _ _ => ⟨hkeeps, hafter⟩) fun _ _ => ⟨hkeeps, hafter⟩
  cases hs : e.draft? tx with
  | none => exact ((keeps_run_of_no_draft hc hP.toIsStable).after ⟨he, hs⟩).1
  | some s =>
      obtain ⟨scope, heq, _⟩ := (Effect.Meets.after ((meets_run_of_draft hc hs
        (horderly.mode_ne_readonly hs)).imp (fun _ hd => hd) (fun _ _ hd => hd.1) fun _ hd => hd) rfl).eq
      rw [heq]
      exact hP.setTransaction (hP.redraft he hs) rfl rfl id id

/-- A call that stores nothing keeps such a property. -/
theorem keeps_run_of_storesNothing (hP : IsKeptByDrafting P) (hc : c.storesNothing = true) :
    c.run.Keeps fun e => P e ∧ e.IsOrderly := by
  have hboth := hP.and Engine.isStable_isOrderly
  have hbegun (e : Engine) (tx : Nat) (he : P e ∧ e.IsOrderly) (hready : e.IsReady tx) :
      P (e.begun tx) ∧ (e.begun tx).IsOrderly :=
    ⟨hP.begun he.1 hready, Engine.isOrderly_begun he.2 hready.isOpen hready.idle⟩
  have hnone {α : Type} {a : Action α} (ha : a.Keeps fun e => P e ∧ e.IsOrderly) :
      (obtainsNone a).Keeps fun e => P e ∧ e.IsOrderly := meets_obtainsNone ha fun _ _ he => he
  by_cases hcalm : c.isCalm = true
  · exact (keeps_run_of_isCalm hboth hcalm).keeps
  cases hthrough : c.through? with
  | some tx => exact keeps_run_through hP hthrough
  | none =>
      cases c with
      | beginOpen path version callback =>
          exact hnone (Action.keeps_beginOpen hboth hbegun path version callback)
      | conclude o result =>
          cases o with
          | current id => exact absurd rfl hcalm
          | upgrade id tx old new =>
              cases result with
              | ok u => cases hc
              | error f =>
                  have habandon := Action.keeps_abandon hboth id tx f.className
                  exact hnone ((Action.meets_conclude_of_error habandon).imp (fun _ he => he)
                    (fun _ _ h => h.elim) fun _ he => he)
      | begin tx => exact hnone (Action.meets_begin hboth (fun _ he => he) fun e he => hbegun e tx he)
      | deleteStore path callback => cases hc
      | commit tx => cases hc
      | close _ | addListener _ _ _ | removeListener _ _ _ | openTransaction _ _ _ | abort _ _ =>
          exact absurd rfl hcalm
      | _ => cases hthrough

end EngineCall

/-! ### What a connection and a transaction were made for -/

namespace Engine

/-- A transaction was begun for the upgrade of a connection. -/
structure IsUpgradeOf (id tx : Nat) (e : Engine) : Prop where
  made : tx < e.transactions.length
  connection : (e.transaction tx).connection = id
  mode : (e.transaction tx).mode = .versionchange
  started : (e.transaction tx).isStarted = true

variable {id tx version : Nat} {path : String} {e d : Engine}

theorem IsMadeFor.rework (h : e.IsMadeFor id path version) (tx : Nat) (w : Work) :
    (e.rework tx w).IsMadeFor id path version := h.setConnection rfl rfl

theorem IsUpgradeOf.of_transaction (h : e.IsUpgradeOf id tx)
    (hlength : e.transactions.length ≤ d.transactions.length)
    (ht : d.transaction tx = e.transaction tx) : d.IsUpgradeOf id tx where
  made := Nat.lt_of_lt_of_le h.made hlength
  connection := (congrArg Transaction.connection ht).trans h.connection
  mode := (congrArg Transaction.mode ht).trans h.mode
  started := (congrArg Transaction.isStarted ht).trans h.started

theorem IsUpgradeOf.mode_ne_readonly (h : e.IsUpgradeOf id tx) : (e.transaction tx).mode ≠ .readonly := by
  rw [h.mode]
  decide

theorem IsUpgradeOf.congr (h : e.IsUpgradeOf id tx) (ht : d.transactions = e.transactions) :
    d.IsUpgradeOf id tx :=
  h.of_transaction (Nat.le_of_eq (congrArg List.length ht.symm)) (transaction_congr ht tx)

theorem IsUpgradeOf.setTransaction (h : e.IsUpgradeOf id tx) {other : Nat} {t : Transaction}
    (hc : t.connection = (e.transaction other).connection) (hm : t.mode = (e.transaction other).mode)
    (hs : (e.transaction other).isStarted = true → t.isStarted = true) :
    (e.setTransaction other t).IsUpgradeOf id tx := by
  have hlength : e.transactions.length = (e.setTransaction other t).transactions.length :=
    List.length_set.symm
  rcases transaction_setTransaction e other t tx with heq | ⟨rfl, heq⟩
  · exact h.of_transaction hlength.le heq
  · refine ⟨h.made.trans_eq hlength, ?_, ?_, ?_⟩
    all_goals rw [heq]
    exacts [hc.trans h.connection, hm.trans h.mode, hs h.started]

theorem IsUpgradeOf.begun (h : e.IsUpgradeOf id tx) (other : Nat) : (e.begun other).IsUpgradeOf id tx := by
  have hset := h.setTransaction (t := { e.transaction other with isStarted := true, isActive := true })
    rfl rfl fun _ => rfl
  exact hset.congr rfl

theorem isStable_isUpgradeOf (id tx : Nat) : IsStable (IsUpgradeOf id tx) where
  congr h _ _ ht := h.congr ht
  connect h := h.congr rfl
  setConnection h _ _ _ _ := h.congr rfl
  observed h _ := h.congr rfl
  close h := h.congr rfl
  make {e other scope mode} h := by
    refine h.of_transaction ?_ ?_
    · rw [List.length_append]
      exact Nat.le_add_right _ _
    · rw [transaction, transaction, List.getElem?_append_left h.made]
  setTransaction h hc hm _ hs := h.setTransaction hc hm hs
  ended {e other} h _ := by
    have hset := h.setTransaction (t := { e.transaction other with isActive := false }) rfl rfl fun hs => hs
    exact hset.congr rfl

/-- It goes on to be for the same whatever is called. -/
theorem isMadeFor_run (c : EngineCall) : c.run.Keeps (IsMadeFor id path version) := by
  refine EngineCall.keeps_run (isStable_isMadeFor id path version) (fun tx change => ?_)
    (fun e tx he _ => ?_) (fun _ _ _ he => he.congr rfl) (fun _ _ he => he.congr rfl) c
  · exact Action.meets_write (fun _ he => he) (fun _ _ he _ _ => he.rework tx _) fun _ he _ => he
  · exact (he.rework tx _).congr rfl

theorem isUpgradeOf_run (c : EngineCall) : c.run.Keeps (IsUpgradeOf id tx) := by
  refine EngineCall.keeps_run (isStable_isUpgradeOf id tx) (fun other change => ?_)
    (fun _ other he _ => he.begun other) (fun _ _ _ he => he.congr rfl) (fun _ _ he => he.congr rfl) c
  exact Action.meets_write (fun _ he => he) (fun _ _ he _ _ => he.congr rfl) fun _ he _ => he

/-- An upgrade whose transaction has no draft any more does not get one again. -/
theorem noDraft_run (c : EngineCall) :
    c.run.Keeps fun e => (e.IsUpgradeOf id tx ∧ e.IsOrderly) ∧ e.draft? tx = none := by
  have hstable := ((isStable_isUpgradeOf id tx).and isStable_isOrderly).and (isStable_draft?_eq_none tx)
  refine EngineCall.keeps_run hstable (fun other change => ?_) (fun e other he hready => ?_)
    (fun _ _ _ he => ⟨⟨he.1.1.congr rfl, he.1.2.made, he.1.2.suits, he.1.2.alone⟩, he.2⟩)
    (fun _ _ he => ⟨⟨he.1.1.congr rfl, he.1.2.made, he.1.2.suits, he.1.2.alone⟩, he.2⟩) c
  · refine Action.meets_write (fun _ he => he) (fun e draft he hopen hw => ?_) fun _ he _ => he
    refine ⟨⟨he.1.1.congr rfl, isOrderly_setDraft he.1.2 hw _⟩, ?_⟩
    exact draft?_setConnection he.2 fun _ _ _ => ⟨hopen, draft, hw⟩
  · obtain ⟨⟨hupgrade, horderly⟩, hdraft⟩ := he
    refine ⟨⟨hupgrade.begun other, isOrderly_begun horderly hready.isOpen hready.idle⟩, ?_⟩
    cases hs : (e.begun other).draft? tx with
    | none => rfl
    | some s =>
        -- it has begun before, and goes on where the other one does not begin
        obtain ⟨hactive, hopen, hwork⟩ := draft?_eq_some_iff.1 hs
        have hne : tx ≠ other := by
          rintro rfl
          exact Bool.false_ne_true (hready.isNew.symm.trans hupgrade.started)
        have hsame : (e.begun other).transaction tx = e.transaction tx :=
          transaction_setTransaction_of_ne hne
        rw [hsame] at hactive hopen hwork
        have hapart := horderly.connection_ne hactive hready.isOpen hready.idle
        rw [connection_begun_of_ne hapart] at hopen hwork
        rw [draft?_eq_some_iff.2 ⟨hactive, hopen, hwork⟩] at hdraft
        cases hdraft

end Engine

/-! ### One writer for each path -/

namespace Engine

/-- Each path has one draft at most, and that has no lower version than the store. -/
structure HasSoleWriters (e : Engine) : Prop where
  sole : ∀ {id other : Nat} {s t : Store}, (e.connection id).work = .writing s →
    (e.connection other).work = .writing t → (e.connection id).path = (e.connection other).path → id = other
  version : ∀ {id : Nat} {s : Store}, (e.connection id).work = .writing s →
    (e.store (e.connection id).path).version ≤ s.version

/-- No connection has a draft of the store under a path. -/
def IsUnwritten (e : Engine) (path : String) : Prop :=
  ∀ id s, (e.connection id).path = path → (e.connection id).work ≠ .writing s

/-- A path keeps its version, or gets a higher one and nobody writes to it any more. -/
def VersionPasses (e d : Engine) (path : String) : Prop :=
  (d.store path).version = (e.store path).version ∨
    (e.store path).version ≤ (d.store path).version ∧ d.IsUnwritten path

variable {e d : Engine} {id tx : Nat} {s : Store} {path : String}

theorem VersionPasses.le (h : e.VersionPasses d path) :
    (e.store path).version ≤ (d.store path).version :=
  h.elim (fun heq => heq.ge) fun hrises => hrises.1

theorem VersionPasses.joined (h : e.VersionPasses d path) (id : Nat) :
    e.VersionPasses (d.joined id) path := by
  refine h.imp_right fun ⟨hle, hunwritten⟩ => ⟨hle, fun other s hother hwork => ?_⟩
  refine hunwritten other s ?_ ?_
  · exact (connection_setConnection_congr Connection.path (by rfl) other).symm.trans hother
  · exact (connection_setConnection_congr Connection.work (by rfl) other).symm.trans hwork

/-- There are no other drafts than there were, and their stores have no higher versions than they had. -/
theorem HasSoleWriters.of (h : e.HasSoleWriters)
    (hwork : ∀ id s, (d.connection id).work = .writing s → (d.connection id).path = (e.connection id).path ∧
      ∃ t, (e.connection id).work = .writing t ∧ t.version = s.version)
    (hstore : ∀ id s, (d.connection id).work = .writing s →
      (d.store (e.connection id).path).version ≤ (e.store (e.connection id).path).version) :
    d.HasSoleWriters where
  sole {id other s t} hid hother hsame := by
    obtain ⟨hpath, s', hwas, _⟩ := hwork id s hid
    obtain ⟨hpath', t', hwas', _⟩ := hwork other t hother
    exact h.sole hwas hwas' (hpath.symm.trans (hsame.trans hpath'))
  version {id s} hid := by
    obtain ⟨hpath, t, hwas, hversion⟩ := hwork id s hid
    rw [← hversion, hpath]
    exact (hstore id s hid).trans (h.version hwas)

theorem hasSoleWriters_setConnection (h : e.HasSoleWriters) {c : Connection}
    (hc : ∀ s, c.work = .writing s → c.path = (e.connection id).path ∧
      ∃ t, (e.connection id).work = .writing t ∧ t.version = s.version) :
    (e.setConnection id c).HasSoleWriters := by
  refine h.of (fun other s hs => ?_) fun _ _ _ => le_rfl
  rcases connection_setConnection e id c other with heq | ⟨rfl, heq⟩
  · rw [heq] at hs ⊢
    exact ⟨rfl, s, hs, rfl⟩
  · rw [heq] at hs ⊢
    exact hc s hs

theorem HasSoleWriters.congr (h : e.HasSoleWriters) (hs : d.stores = e.stores)
    (hc : d.connections = e.connections) : d.HasSoleWriters := by
  refine h.of (fun id s hid => ?_) fun _ _ _ => by rw [store_congr hs]
  rw [connection_congr hc] at hid ⊢
  exact ⟨rfl, s, hid, rfl⟩

theorem isStable_hasSoleWriters : IsStable HasSoleWriters where
  congr h hs hc _ := h.congr hs hc
  connect {e path version} h := by
    refine h.of (fun id s hid => ?_) fun _ _ _ => le_rfl
    rcases connection_connected e path version id with heq | ⟨_, heq⟩
    · exact ⟨congrArg Connection.path heq, s, (congrArg Connection.work heq).symm.trans hid, rfl⟩
    · exact nomatch (congrArg Connection.work heq).symm.trans hid
  setConnection h hp _ _ hw := hasSoleWriters_setConnection h fun s hs => ⟨hp, s, hw ▸ hs, rfl⟩
  observed h _ := hasSoleWriters_setConnection h nofun
  close h := hasSoleWriters_setConnection h nofun
  make h := h.congr rfl rfl
  setTransaction h _ _ _ _ := h.congr rfl rfl
  ended {e tx} h _ := by
    have hset : (e.setTransaction tx { e.transaction tx with isActive := false }).HasSoleWriters :=
      h.congr rfl rfl
    exact hasSoleWriters_setConnection hset nofun

theorem hasOtherWriter_iff : Action.hasOtherWriter e id path = true ↔
    ∃ other, other ≠ id ∧ (e.connection other).path = path ∧
      ∃ s, (e.connection other).work = .writing s := by
  unfold Action.hasOtherWriter
  rw [List.any_eq_true]
  constructor
  · rintro ⟨other, _, h⟩
    rw [Bool.and_eq_true, Bool.and_eq_true, bne_iff_ne, beq_iff_eq] at h
    refine ⟨other, h.1.1, h.1.2, ?_⟩
    split at h
    · next s hwork => exact ⟨s, hwork⟩
    · cases h.2
  · rintro ⟨other, hne, hpath, s, hwork⟩
    refine ⟨other, List.mem_range.2 ?_, ?_⟩
    · by_contra hle
      rw [connection, List.getElem?_eq_none (Nat.le_of_not_lt hle)] at hwork
      cases hwork
    · simp [hne, hpath, hwork]

/-- A transaction begins to write as the only one, with the store as it is. -/
theorem hasSoleWriters_begun (h : e.HasSoleWriters) (hready : e.IsReady tx) :
    (e.begun tx).HasSoleWriters := by
  have hself := work_begun hready.isOpen
  have hpath (other : Nat) : ((e.begun tx).connection other).path = (e.connection other).path :=
    connection_setConnection_congr Connection.path (by rfl) other
  have hother {other : Nat} (hne : other ≠ (e.transaction tx).connection) :
      (e.begun tx).connection other = e.connection other := connection_begun_of_ne hne
  rcases hready.alone with hmode | halone
  · rw [if_pos hmode] at hself
    refine h.of (fun other s hs => ?_) fun _ _ _ => le_rfl
    by_cases hne : other = (e.transaction tx).connection
    · subst hne
      cases hself.symm.trans hs
    · rw [hother hne] at hs ⊢
      exact ⟨rfl, s, hs, rfl⟩
  · have hnobody {other : Nat} {s : Store} (hne : other ≠ (e.transaction tx).connection)
        (hs : ((e.begun tx).connection other).work = .writing s)
        (hsame : (e.connection other).path = (e.connection (e.transaction tx).connection).path) :
        False := by
      rw [hother hne] at hs
      exact Bool.false_ne_true (halone.symm.trans (hasOtherWriter_iff.2 ⟨other, hne, hsame, s, hs⟩))
    refine ⟨fun {one other s t} hone hanother hsame => ?_, fun {one s} hone => ?_⟩
    · rw [hpath, hpath] at hsame
      by_cases hne : one = (e.transaction tx).connection
      · subst hne
        by_contra hne'
        exact hnobody (Ne.symm hne') hanother hsame.symm
      · by_cases hne' : other = (e.transaction tx).connection
        · subst hne'
          exact (hnobody hne hone hsame).elim
        · rw [hother hne] at hone
          rw [hother hne'] at hanother
          exact h.sole hone hanother hsame
    · rw [hpath]
      by_cases hne : one = (e.transaction tx).connection
      · subst hne
        have hdraft := hself.symm.trans hone
        split at hdraft
        · cases hdraft
        · cases hdraft
          exact le_rfl
      · rw [hother hne] at hone
        exact h.version hone

theorem isKeptByDrafting_hasSoleWriters : IsKeptByDrafting HasSoleWriters :=
  { isStable_hasSoleWriters with
    redraft := fun {e tx s k} h hs => by
      obtain ⟨_, _, hwork⟩ := draft?_eq_some_iff.1 hs
      refine hasSoleWriters_setConnection h ?_
      rintro _ ⟨⟩
      exact ⟨rfl, s, hwork, rfl⟩
    begun := hasSoleWriters_begun }

theorem HasSoleWriters.forget (h : e.HasSoleWriters) (path : String) : (e.forget path).HasSoleWriters := by
  refine h.of (fun id s hid => ⟨rfl, s, hid, rfl⟩) fun id _ _ => ?_
  rw [store_forget]
  split
  · exact Nat.zero_le _
  · exact le_rfl

/-- Whoever still writes after a transaction was committed is another connection, and works as before. -/
theorem connection_committed_of_writing (hs : e.draft? tx = some s) {t s' : Store} {other : Nat}
    (hs' : ((e.committed tx t).connection other).work = .writing s') :
    other ≠ (e.transaction tx).connection ∧ (e.committed tx t).connection other = e.connection other := by
  have hself : ((e.committed tx t).connection (e.transaction tx).connection).work = .idle :=
    congrArg Connection.work (connection_setConnection_self (draft?_eq_some_iff.1 hs).isOpen)
  have hne : other ≠ (e.transaction tx).connection := by
    rintro rfl
    cases hself.symm.trans hs'
  exact ⟨hne, connection_setConnection_of_ne hne⟩

theorem HasSoleWriters.committed (h : e.HasSoleWriters) (hs : e.draft? tx = some s) (t : Store) :
    (e.committed tx t).HasSoleWriters := by
  refine h.of (fun other s' hs' => ?_) fun other s' hs' => ?_
  · have hsame := (connection_committed_of_writing hs hs').2
    rw [hsame] at hs' ⊢
    exact ⟨rfl, s', hs', rfl⟩
  · -- the store of another writer is another one
    obtain ⟨hne, hsame⟩ := connection_committed_of_writing hs hs'
    rw [hsame] at hs'
    have hpath := fun hpath => hne (h.sole hs' (draft?_eq_some_iff.1 hs).work hpath)
    exact (congrArg Store.version (store_keep_of_ne hpath)).le

/-- A commit of a store that has no lower version lowers no version. -/
theorem HasSoleWriters.versionPasses (h : e.HasSoleWriters) (hs : e.draft? tx = some s) {t : Store}
    (ht : (e.store (e.connection (e.transaction tx).connection).path).version ≤ t.version) (path : String) :
    e.VersionPasses (e.committed tx t) path := by
  by_cases hpath : path = (e.connection (e.transaction tx).connection).path
  · subst hpath
    refine .inr ⟨?_, fun other s' hother hs' => ?_⟩
    · exact ht.trans_eq (congrArg Store.version (store_keep_self e _ t)).symm
    · obtain ⟨hne, hsame⟩ := connection_committed_of_writing hs hs'
      rw [hsame] at hother hs'
      exact hne (h.sole hs' (draft?_eq_some_iff.1 hs).work hother)
  · exact .inl (congrArg Store.version (store_keep_of_ne hpath))

end Engine

/-- A call that neither concludes an upgrade nor deletes a store lowers no version, and leaves one writer at
most for each path. -/
theorem EngineCall.versions_run {e : Engine} {c : EngineCall} (h : e.HasSoleWriters)
    (horderly : e.IsOrderly) (hc : c.storesNothing = true ∨ ∃ tx, c = .commit tx) :
    (c.run.after e).HasSoleWriters ∧ ∀ path, e.VersionPasses (c.run.after e) path := by
  have hstores := Engine.isKeptByDrafting_stores (· = e.stores)
  rcases hc with hc | ⟨tx, rfl⟩
  · refine ⟨((keeps_run_of_storesNothing Engine.isKeptByDrafting_hasSoleWriters hc).after
      ⟨h, horderly⟩).1, fun path => .inl ?_⟩
    have hsame := ((keeps_run_of_storesNothing hstores hc).after ⟨rfl, horderly⟩).1
    exact congrArg Store.version (Engine.store_congr hsame path)
  · cases hs : e.draft? tx with
    | none =>
        have hcommit := Action.keeps_commit_of_no_draft
          (Engine.isStable_hasSoleWriters.and hstores.toIsStable) tx
        obtain ⟨hwriters, hsame⟩ := Effect.Meets.after
          (meets_obtainsNone hcommit fun _ _ hd => hd) ⟨⟨h, rfl⟩, hs⟩
        exact ⟨hwriters, fun path => .inl (congrArg Store.version (Engine.store_congr hsame path))⟩
    | some s =>
        rw [show (EngineCall.commit tx).run.after e = e.committed tx s from
          after_obtainsNone (r := .ok ()) (Action.commit_of_draft hs)]
        exact ⟨h.committed hs s, h.versionPasses hs (h.version (Engine.draft?_eq_some_iff.1 hs).work)⟩

/-! ### Openings that begin -/

namespace Action

variable {e d : Engine} {path : String} {version : Value} {callback : Option String} {o : Opening}

/-- How an opening can begin: on a new connection, at the version of the store, or with an upgrade if nobody
holds the path open or writes to it. -/
inductive Begins (e : Engine) (path : String) : Value → Opening → Engine → Prop
  | current {n : Nat} (hn : 1 ≤ n) (h : n = (e.store path).version) :
      Begins e path (.int n) (.current e.connections.length) (e.connected path n)
  | upgrade {n : Nat} (h : (e.store path).version < n) (hfree : e.liveAt path = [])
      (hready : (e.upgradeMade path n).IsReady e.transactions.length) :
      Begins e path (.int n)
        (.upgrade e.connections.length e.transactions.length (e.store path).version n)
        (e.upgradeBegun path n)

theorem begins_of_ok (he : e.HoldsMade 0) (h : beginOpen path version callback e = .ok o d) :
    Begins e path version o d := by
  by_cases hvalid : ∃ n : Nat, 1 ≤ n ∧ version = .int n
  · obtain ⟨n, hn, rfl⟩ := hvalid
    have hrun := beginOpen_run hn path callback e
    rcases Nat.lt_trichotomy n (e.store path).version with hlower | hcurrent | hhigher
    · rw [if_pos hlower, h] at hrun
      cases hrun
    · rw [if_neg (by omega), if_pos hcurrent, h] at hrun
      cases hrun
      exact .current hn hcurrent
    · by_cases hfree : e.liveAt path = []
      · have hbegin := beginOpen_of_unheld he hfree hhigher callback
        cases hhindrance : (e.upgradeMade path n).hindrance e.transactions.length with
        | none =>
            rw [hhindrance, h] at hbegin
            cases hbegin
            have hnew := congrArg Transaction.isStarted (transaction_upgradeMade e path n)
            exact .upgrade hhigher hfree (isReady_iff.2 ⟨hnew, hhindrance⟩)
        | some f =>
            rw [hhindrance, h] at hbegin
            cases hbegin
      · rw [beginOpen_heard he hfree hhigher callback] at h
        cases h
  · rw [beginOpen_of_invalid fun n hn hv => hvalid ⟨n, hn, hv⟩] at h
    cases h

theorem isMadeFor_connected (e : Engine) (path : String) (n : Nat) :
    (e.connected path n).IsMadeFor e.connections.length path n := by
  have hself := Engine.connection_connected_self e path n
  refine ⟨?_, congrArg Connection.path hself, congrArg Connection.version hself⟩
  rw [Engine.connected, List.length_append]
  exact Nat.lt_succ_self _

theorem isMadeFor_upgradeBegun (e : Engine) (path : String) (n : Nat) :
    (e.upgradeBegun path n).IsMadeFor e.connections.length path n := by
  have hmade : (e.upgradeMade path n).IsMadeFor e.connections.length path n :=
    (isMadeFor_connected e path n).congr rfl
  exact (hmade.rework e.transactions.length _).congr rfl

theorem isUpgradeOf_upgradeBegun (e : Engine) (path : String) (n : Nat) :
    (e.upgradeBegun path n).IsUpgradeOf e.connections.length e.transactions.length := by
  have htransaction := transaction_upgradeBegun e path n
  refine ⟨?_, ?_, ?_, ?_⟩
  · exact (lt_upgradeMade e path n).trans_eq List.length_set.symm
  all_goals rw [htransaction]

end Action

end RecordStore
