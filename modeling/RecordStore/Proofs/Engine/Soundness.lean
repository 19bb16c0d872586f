import RecordStore.Proofs.Contents
import RecordStore.Proofs.Engine.Access

/-!
Sound states of the engine: the stores that are kept, and what connections have under way, hold
sound contents. Only the draft of an upgrade may have flawed indexes, which are those whose making
was given up in it; a transaction in which none was given up can be committed.
-/

namespace RecordStore

/-- An index whose making was given up in the draft of a connection. -/
structure GivenUp where
  connection : Nat
  collection : String
  index : String
  deriving DecidableEq

/-- The indexes that were given up in the draft of a connection, by their collections. -/
def GivenUp.flawed (givenUp : List GivenUp) (id : Nat) (collection index : String) : Prop :=
  ⟨id, collection, index⟩ ∈ givenUp

def Work.IsSound (w : Work) (flawed : String → String → Prop) : Prop :=
  match w with
  | .idle => True
  | .reading none => True
  | .reading (some s) => s.contents.IsSound fun _ _ => False
  | .writing s => s.contents.IsSound flawed

/-- What is sound stays so when more is flawed. -/
theorem Work.IsSound.mono {w : Work} {flawed others : String → String → Prop}
    (h : w.IsSound flawed) (hsub : ∀ name index, flawed name index → others name index) :
    w.IsSound others := by
  cases w with
  | idle => trivial
  | reading snapshot =>
      cases snapshot with
      | none => trivial
      | some s => exact h
  | writing draft => exact Contents.IsSound.mono h hsub

namespace Engine

structure IsSound (givenUp : List GivenUp) (e : Engine) : Prop where
  kept : ∀ path, (e.store path).contents.IsSound fun _ _ => False
  work : ∀ id, (e.connection id).work.IsSound (GivenUp.flawed givenUp id)

/-- A sound state in which a transaction belongs to a connection. -/
def IsSoundAt (givenUp : List GivenUp) (tx id : Nat) (e : Engine) : Prop :=
  e.IsSound givenUp ∧ (e.transaction tx).connection = id

variable {e : Engine} {givenUp : List GivenUp} {id : Nat} {c : Connection} {path : String}
  {s : Store}

/-- Only the stores that are kept and the connections count. -/
theorem IsSound.congr (h : e.IsSound givenUp) {d : Engine} (hs : d.stores = e.stores)
    (hc : d.connections = e.connections) : d.IsSound givenUp where
  kept path := by
    rw [store, hs]
    exact h.kept path
  work id := by
    rw [connection_congr hc]
    exact h.work id

theorem IsSound.mono (h : e.IsSound givenUp) {others : List GivenUp}
    (hsub : ∀ g ∈ givenUp, g ∈ others) : e.IsSound others :=
  ⟨h.kept, fun id => (h.work id).mono fun _ _ => hsub _⟩

theorem isSound_initial : initial.IsSound [] :=
  ⟨fun _ => Contents.isSound_empty, fun _ => trivial⟩

theorem isSound_setConnection (h : e.IsSound givenUp)
    (hc : c.work.IsSound (GivenUp.flawed givenUp id)) : (e.setConnection id c).IsSound givenUp where
  kept := h.kept
  work other := by
    rcases connection_setConnection e id c other with heq | ⟨rfl, heq⟩
    · rw [heq]
      exact h.work other
    · rw [heq]
      exact hc

/-- While nothing is drafted at a connection, indexes can be given up in its draft or not. -/
theorem IsSound.of_not_writing (h : e.IsSound givenUp) {others : List GivenUp}
    (hw : ∀ draft, (e.connection id).work ≠ .writing draft)
    (hsub : ∀ g ∈ givenUp, g.connection ≠ id → g ∈ others) : e.IsSound others where
  kept := h.kept
  work other := by
    have hwork := h.work other
    by_cases ho : other = id
    · subst ho
      cases hcase : (e.connection other).work with
      | idle => trivial
      | reading snapshot =>
          rw [hcase] at hwork
          cases snapshot with
          | none => trivial
          | some s => exact hwork
      | writing draft => exact absurd hcase (hw draft)
    · exact hwork.mono fun _ _ hg => hsub _ hg ho

/-- A new draft of a connection, with other indexes given up in it. -/
theorem isSound_setDraft (h : e.IsSound givenUp) {others : List GivenUp}
    (hopen : (e.connection id).isClosed = false)
    (hc : c.work.IsSound (GivenUp.flawed others id))
    (hsub : ∀ g ∈ givenUp, g.connection ≠ id → g ∈ others) :
    (e.setConnection id c).IsSound others where
  kept := h.kept
  work other := by
    by_cases ho : other = id
    · rw [ho, connection_setConnection_self hopen]
      exact hc
    · rw [connection_setConnection_of_ne ho]
      exact (h.work other).mono fun _ _ hg => hsub _ hg ho

theorem isSound_keep (h : e.IsSound givenUp) (hs : s.contents.IsSound fun _ _ => False) :
    (e.keep path s).IsSound givenUp where
  kept other := by
    by_cases ho : other = path
    · rw [ho, store_keep_self]
      exact hs
    · rw [store_keep_of_ne ho]
      exact h.kept other
  work := h.work

theorem isSound_forget (h : e.IsSound givenUp) : (e.forget path).IsSound givenUp where
  kept other := by
    rw [store_forget]
    split
    · exact Contents.isSound_empty
    · exact h.kept other
  work := h.work

theorem isSound_append (h : e.IsSound givenUp) (hc : c.work = .idle) :
    { e with connections := e.connections ++ [c] : Engine }.IsSound givenUp where
  kept := h.kept
  work id := by
    have hwork := h.work id
    rw [connection] at hwork ⊢
    rw [List.getElem?_append]
    split
    · exact hwork
    · rw [List.getElem?_singleton]
      split
      · rw [Option.getD_some, hc]
        trivial
      · trivial

theorem isStable_isSound (givenUp : List GivenUp) : IsStable (IsSound givenUp) where
  congr h hs hc _ := h.congr hs hc
  connect h := isSound_append h rfl
  setConnection h _ _ _ hw := isSound_setConnection h (hw ▸ h.work _)
  observed h _ := isSound_setConnection h (h.kept _)
  close h := isSound_setConnection h trivial
  make h := h.congr rfl rfl
  setTransaction h _ _ _ _ := h.congr rfl rfl
  ended h _ := isSound_setConnection (h.congr rfl rfl) trivial

theorem isSound_begun (h : e.IsSound givenUp) (tx : Nat) : (e.begun tx).IsSound givenUp := by
  refine (isSound_setConnection h ?_).congr rfl rfl
  dsimp only
  split
  · trivial
  · exact (h.kept _).mono fun _ _ => False.elim

end Engine

/-! ### Transactions -/

namespace Action

open Effect

variable {α : Type} {givenUp : List GivenUp} {Q : α → Engine → Prop} {E : Engine → Prop}

/-- A transaction belongs to the connection that it belongs to. -/
theorem meets_of_at {a : Action α} (tx : Nat)
    (h : ∀ id, a.Meets (Engine.IsSoundAt givenUp tx id) Q E) :
    a.Meets (Engine.IsSound givenUp) Q E :=
  fun e he => h _ e ⟨he, rfl⟩

/-- A commit of a transaction in whose draft no index was given up. -/
theorem isSound_commit {tx id : Nat} (h : ∀ g ∈ givenUp, g.connection ≠ id) :
    (commit tx).Meets (Engine.IsSoundAt givenUp tx id) (fun _ => Engine.IsSound givenUp)
      (Engine.IsSound givenUp) := by
  have hstable := Engine.isStable_isSound givenUp
  refine meets_commit hstable hstable (fun _ he => he.1) (fun e draft he _ _ hw => ?_)
    fun _ he _ => he.1
  have hwork := he.1.work (e.transaction tx).connection
  rw [hw, he.2] at hwork
  exact Engine.isSound_keep he.1 (Contents.IsSound.mono hwork fun _ _ hg => h _ hg rfl)

/-- What a transaction reads is sound, up to the indexes that were given up in its draft. -/
theorem isSound_read (tx id : Nat) :
    (read tx).Ensures (Engine.IsSoundAt givenUp tx id)
      fun s => s.contents.IsSound (GivenUp.flawed givenUp id) := by
  refine ensures_read ?_ ?_ ?_ ?_
  · exact fun e other he hw => ⟨(Engine.isStable_isSound givenUp).observed he.1 hw, he.2⟩
  · intro e s he hw
    have hwork := he.1.work (e.transaction tx).connection
    rw [hw, he.2] at hwork
    exact hwork
  · intro e s he hw
    have hwork := he.1.work (e.transaction tx).connection
    rw [hw] at hwork
    exact Contents.IsSound.mono hwork fun _ _ => False.elim
  · exact fun e path he => (he.1.kept path).mono fun _ _ => False.elim

theorem isSound_read_of_sound (tx : Nat) :
    (read tx).Ensures (Engine.IsSound givenUp)
      fun s => ∃ id, s.contents.IsSound (GivenUp.flawed givenUp id) :=
  meets_of_at tx fun id => (isSound_read tx id).imp (fun _ he => he)
    (fun _ _ hs => ⟨hs.1.1, id, hs.2⟩) fun _ he => he.1

/-- A write keeps the state sound, with other indexes given up, if the draft is then sound so. -/
theorem isSound_write {tx id : Nat} {change : Store → Store} (others : List GivenUp)
    (hchange : ∀ s, s.contents.IsSound (GivenUp.flawed givenUp id) →
      (change s).contents.IsSound (GivenUp.flawed others id))
    (hsub : ∀ g ∈ givenUp, g.connection ≠ id → g ∈ others) :
    (write tx change).Meets (Engine.IsSoundAt givenUp tx id)
      (fun _ => Engine.IsSoundAt others tx id) (Engine.IsSoundAt givenUp tx id) := by
  refine meets_write (fun _ he => he) ?_ ?_
  · rintro e draft ⟨he, rfl⟩ hopen hw
    have hwork := he.work (e.transaction tx).connection
    rw [hw] at hwork
    exact ⟨Engine.isSound_setDraft he hopen (hchange draft hwork) hsub, rfl⟩
  · rintro e ⟨he, rfl⟩ hw
    exact ⟨he.of_not_writing hw hsub, rfl⟩

/-- A write that keeps every draft sound. -/
theorem isSound_write_of_sound {tx : Nat} {change : Store → Store}
    (hchange : ∀ s flawed, s.contents.IsSound flawed → (change s).contents.IsSound flawed) :
    (write tx change).Keeps (Engine.IsSound givenUp) :=
  meets_of_at tx fun _ => (isSound_write givenUp (fun s hs => hchange s _ hs) fun _ hg _ => hg).imp
    (fun _ he => he) (fun _ _ he => he.1) fun _ he => he.1

end Action

/-! ### Collections -/

namespace StoreRef

open Effect

variable {α : Type} {givenUp : List GivenUp}

/-- A change of a collection, after which other indexes are given up in it; which ones may depend
on whether it succeeds. -/
theorem isSound_change {f : Collection → Except Failure α × Collection} {r : StoreRef} {id : Nat}
    {made left : List GivenUp}
    (hmade : ∀ c x d, c.IsSound (GivenUp.flawed givenUp id r.name) → f c = (.ok x, d) →
      d.IsSound (GivenUp.flawed made id r.name))
    (hleft : ∀ c x d, c.IsSound (GivenUp.flawed givenUp id r.name) → f c = (.error x, d) →
      d.IsSound (GivenUp.flawed left id r.name))
    (hothers : ∀ g ∈ givenUp, ¬(g.connection = id ∧ g.collection = r.name) → g ∈ made)
    (hmore : ∀ g ∈ givenUp, g ∈ left) :
    (r.change f).Meets (Engine.IsSoundAt givenUp r.transaction id) (fun _ => Engine.IsSound made)
      (Engine.IsSound left) := by
  refine meets_change (T := fun c => c.IsSound (GivenUp.flawed givenUp id r.name)) ?_ ?_ ?_
  · exact (Action.isSound_read r.transaction id).imp (fun _ he => he)
      (fun s _ hs => ⟨hs.1, hs.2 r.name⟩) fun _ he => he.1.mono hmore
  · intro c x d hc hf
    refine (Action.isSound_write made (fun s hs => ?_) fun g hg hid =>
      hothers g hg fun h => hid h.1).imp (fun _ he => he) (fun _ _ he => he.1)
        fun _ he => he.1.mono hmore
    exact Contents.isSound_set hs (hmade c x d hc hf) fun other ho index hg =>
      hothers _ hg fun h => ho h.2
  · intro c x d hc hf
    refine (Action.isSound_write left (fun s hs => ?_) fun g hg _ => hmore g hg).imp
      (fun _ he => he) (fun _ _ he => he.1) fun _ he => he.1.mono hmore
    exact Contents.isSound_set hs (hleft c x d hc hf) fun other _ index hg => hmore _ hg

/-- A change that keeps every collection sound. -/
theorem isSound_change_of_sound {f : Collection → Except Failure α × Collection} (r : StoreRef)
    (hf : ∀ c flawed, c.IsSound flawed → (f c).2.IsSound flawed) :
    (r.change f).Keeps (Engine.IsSound givenUp) := by
  have hafter {c d : Collection} {x : Except Failure α} {flawed : String → Prop}
      (hc : c.IsSound flawed) (h : f c = (x, d)) : d.IsSound flawed := by
    have := hf c flawed hc
    rw [h] at this
    exact this
  refine Action.meets_of_at r.transaction fun id => ?_
  exact isSound_change (fun _ _ _ hc h => hafter hc h) (fun _ _ _ hc h => hafter hc h)
    (fun _ hg _ => hg) fun _ hg => hg

theorem isSound_write {r : StoreRef} (hr : r.keying.IsTagFree) (value key : Value)
    (overwrite : Bool) : (r.write value key overwrite).Keeps (Engine.IsSound givenUp) :=
  meets_write (r.isSound_change_of_sound fun _ _ hc => Collection.isSound_write hc hr rfl)

theorem isSound_delete (r : StoreRef) (query : Value) :
    (r.delete query).Keeps (Engine.IsSound givenUp) :=
  meets_delete fun _ _ => r.isSound_change_of_sound fun _ _ hc => Collection.isSound_delete hc _

/-- An index that is made is not flawed any more, and one whose making fails is given up. -/
theorem isSound_createIndex (r : StoreRef) (name keyPath unique multiEntry : Value) (id : Nat) :
    (r.createIndex name keyPath unique multiEntry).Meets
      (Engine.IsSoundAt givenUp r.transaction id)
      (fun _ => Engine.IsSound (givenUp.filter (· ≠ ⟨id, r.name, name.display⟩)))
      (Engine.IsSound (⟨id, r.name, name.display⟩ :: givenUp)) := by
  have hmore : ∀ g ∈ givenUp, g ∈ (⟨id, r.name, name.display⟩ : GivenUp) :: givenUp :=
    fun _ => List.mem_cons_of_mem _
  refine meets_createIndex (fun _ he => he.1.mono hmore) fun spec => isSound_change ?_ ?_ ?_ hmore
  · rintro c ⟨⟩ d hc h
    refine (Collection.isSound_createIndex hc h).mono fun index ⟨hg, hne⟩ => ?_
    exact List.mem_filter.2 ⟨hg, decide_eq_true fun h => hne (GivenUp.mk.inj h).2.2⟩
  · intro c f d hc h
    refine (Collection.isSound_createIndex_of_error hc h).mono fun index hg => ?_
    rcases hg with hg | ⟨rfl, _⟩
    · exact hmore _ hg
    · exact List.mem_cons_self
  · intro g hg hne
    refine List.mem_filter.2 ⟨hg, decide_eq_true ?_⟩
    rintro rfl
    exact hne ⟨rfl, rfl⟩

/-- The draft that a handle belongs to has an index in the handle's collection. -/
def hasIndex (r : StoreRef) (name : String) (e : Engine) : Bool :=
  match (e.connection (e.transaction r.transaction).connection).work with
  | .writing draft => ((draft.contents.get r.name).index? name).isSome
  | _ => false

/-- An index that is there is not made again, and stays as it is. -/
theorem isSound_createIndex_of_hasIndex {r : StoreRef} {name : Value} {e : Engine}
    (he : e.IsSound givenUp) (h : r.hasIndex name.display e = true)
    (keyPath unique multiEntry : Value) :
    (r.createIndex name keyPath unique multiEntry).Meets (· = e) (fun _ _ => False)
      (Engine.IsSound givenUp) := by
  unfold hasIndex at h
  split at h
  · next draft hw =>
    have hwork := he.work (e.transaction r.transaction).connection
    rw [hw] at hwork
    refine meets_createIndex (fun d hd => hd ▸ he) fun spec => ?_
    refine meets_change (T := fun c => c = draft.contents.get r.name)
      ((Action.meets_read_of_writing hw).imp (fun _ hd => hd)
        (fun _ _ ⟨hd, hs⟩ => ⟨hd, by rw [hs]⟩) fun _ hd => hd ▸ he) ?_ ?_
    · rintro c x d rfl hf
      rcases Collection.createIndex_cases hf with ⟨_, ⟨_, hx⟩, _⟩ | ⟨hnone, _⟩
      · cases hx
      · rw [hnone] at h
        cases h
    · rintro c x d rfl hf
      rcases Collection.createIndex_cases hf with ⟨_, _, rfl⟩ | ⟨hnone, _⟩
      · refine (Action.isSound_write givenUp (fun s hs => ?_) fun _ hg _ => hg).imp
          (fun d hd => ⟨hd ▸ he, by rw [hd]⟩) (fun _ _ hd => hd.1) fun _ hd => hd.1
        exact Contents.isSound_set hs (hwork r.name) fun _ _ _ hg => hg
      · rw [hnone] at h
        cases h
  · cases h

end StoreRef
end RecordStore
