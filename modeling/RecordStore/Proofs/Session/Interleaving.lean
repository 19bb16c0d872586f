import RecordStore.Proofs.Session.Jobs

/-!
Calls of sessions that run at the same time. Each call that is a job runs up to the point where it waits for
the connection, and goes on from there when it is let go on. The connection has a lock. Whoever has it works
part by part, and others are let in between the parts: they may ask for the connection, or for it to be closed.
-/

namespace RecordStore

open Effect

namespace Effect

variable {σ α : Type} {a : Effect σ α} {s t : σ} {r : Except Failure α}

/-- How an effect ends, and the state that it ends in. -/
def outcome (a : Effect σ α) (s : σ) : Except Failure α × σ :=
  match a s with
  | .ok x t => (.ok x, t)
  | .error f t => (.error f, t)

theorem outcome_of_ending (h : a s = ending r t) : a.outcome s = (r, t) := by
  rw [outcome, h]
  cases r with
  | ok x => rfl
  | error f => rfl

end Effect

/-! ### Work in parts -/

/-- Work on a state in parts, between which others are let in. How a part ends decides how it goes on. -/
inductive Routine (σ α : Type) : Type 1 where
  | ended (r : Except Failure α)
  | part {β : Type} (a : Effect σ β) (next : Except Failure β → Routine σ α)

namespace Routine

variable {σ α β : Type} {s t : σ}

/-- All parts of some work, one right after the other. -/
def whole : Routine σ α → Effect σ α
  | ended r => ofExcept r
  | part a next => do
    let r ← attempt a
    (next r).whole

/-- Work of one part. -/
def once (a : Effect σ α) : Routine σ α := part a ended

/-- Goes on when some work is over, however it ended. -/
def followedBy (f : Except Failure α → Routine σ β) : Routine σ α → Routine σ β
  | ended r => f r
  | part a next => part a fun r => (next r).followedBy f

/-- Goes on when some work has succeeded. -/
def andThen (x : Routine σ α) (f : α → Routine σ β) : Routine σ β :=
  x.followedBy fun
    | .ok y => f y
    | .error g => ended (.error g)

theorem whole_ended (r : Except Failure α) (s : σ) : (ended r : Routine σ α).whole s = ending r s :=
  ofExcept_run r s

theorem whole_part {a : Effect σ β} {r : Except Failure β} (h : a s = ending r t)
    (next : Except Failure β → Routine σ α) : (part a next).whole s = (next r).whole t :=
  bind_of_ok (attempt_of_ending h) _

theorem whole_once (a : Effect σ α) : (once a).whole = a := by
  funext s
  obtain ⟨r, hr⟩ := exists_ending a s
  rw [once, whole_part hr, whole_ended, hr]

theorem whole_followedBy (x : Routine σ α) (f : Except Failure α → Routine σ β) :
    (x.followedBy f).whole = attempt x.whole >>= fun r => (f r).whole := by
  funext s
  induction x generalizing s with
  | ended r => exact (bind_of_ok (attempt_of_ending (whole_ended r s)) fun r => (f r).whole).symm
  | part a next ih =>
      obtain ⟨r, hr⟩ := exists_ending a s
      obtain ⟨r', hr'⟩ := exists_ending (next r).whole (a.after s)
      have hwhole := (whole_part hr next).trans hr'
      rw [followedBy, whole_part hr, ih, bind_of_ok (attempt_of_ending hr'), bind_of_ok (attempt_of_ending hwhole)]

theorem whole_andThen (x : Routine σ α) (f : α → Routine σ β) :
    (x.andThen f).whole = x.whole >>= fun y => (f y).whole := by
  rw [andThen, whole_followedBy]
  funext s
  obtain ⟨r, hr⟩ := exists_ending x.whole s
  rw [bind_of_ok (attempt_of_ending hr)]
  cases r with
  | ok y => exact (bind_of_ok hr fun y => (f y).whole).symm
  | error g => exact (whole_ended _ _).trans (bind_of_error hr _).symm

end Routine

/-! ### Calls in parts -/

namespace Session

/-- A call that is a job, whose work is divided into parts. -/
structure Job : Type 1 where
  call : Call
  work : Except Failure (Nat → Routine Engine Account)
  divides : call.work? = some (work.map fun parts db => (parts db).whole)

/-- The parts of a job on a connection of the engine. -/
def Job.parts (j : Job) (db : Nat) : Routine Engine Account :=
  match j.work with
  | .ok parts => parts db
  | .error f => .ended (.error f)

end Session

open Session

/-- How far a job is: it waits for the connection, it has it and still has some work to do, or it is over. -/
inductive Phase : Type 1 where
  | waiting
  | working (rest : Routine Engine Account)
  | ended (r : Except Failure Value)

/-- What was asked of a session. -/
structure Errand : Type 1 where
  session : Session
  job : Job
  phase : Phase

namespace Errand

def isWaiting (t : Errand) : Bool :=
  match t.phase with
  | .waiting => true
  | _ => false

/-- An errand that has asked for the connection and is not over. -/
def isPending (t : Errand) : Bool :=
  match t.phase with
  | .ended _ => false
  | _ => true

end Errand

/-- Errands on one connection: the hub, the lock of the connection, all that was asked for, and the errands
that have begun to work, in the order in which they did. -/
structure Scene : Type 1 where
  hub : Hub
  isLocked : Bool
  errands : List Errand
  started : List Nat

/-- What can happen on a connection: a session that shares it is asked for something, or an errand is let go
on. -/
inductive Move (id : Nat) : Type 1 where
  | ask (s : Session) (shares : s.connection = id) (j : Job)
  | go (i : Nat)

namespace Scene

/-- Nothing was asked yet. -/
def opening (h : Hub) : Scene := ⟨h, false, [], []⟩

/-- A session asks for the connection. -/
def enqueue (x : Scene) (s : Session) (j : Job) : Scene :=
  { x with hub := j.call.asked s x.hub, errands := x.errands ++ [⟨s, j, .waiting⟩] }

/-- An errand begins to work. -/
def begin (x : Scene) (i : Nat) (t : Errand) : Scene :=
  { x with
    isLocked := true
    errands := x.errands.set i { t with
      phase := .working (t.job.parts (x.hub.connection t.session.connection).db) }
    started := x.started ++ [i] }

/-- An errand has done a part of its work. -/
def proceed (x : Scene) (i : Nat) (t : Errand) (rest : Routine Engine Account) (e : Engine) : Scene :=
  { x with
    hub := { x.hub with engine := e }
    errands := x.errands.set i { t with phase := .working rest } }

/-- An errand is over, and gives the lock back. -/
def finish (x : Scene) (i : Nat) (t : Errand) (v : Except Failure Value) (h : Hub) : Scene :=
  { x with
    hub := h
    isLocked := false
    errands := x.errands.set i { t with phase := .ended v } }

/-- An errand is refused when its turn comes. -/
def turnAway (x : Scene) (i : Nat) (t : Errand) : Scene :=
  x.finish i t (.error .sessionClosed) (x.hub.released t.session.connection)

/-- A session is asked for something. It takes the lock at once if nobody has it or waits for it. -/
def ask (x : Scene) (s : Session) (j : Job) : Scene :=
  match (j.call.on s).enter x.hub with
  | .error f h => { x with hub := h, errands := x.errands ++ [⟨s, j, .ended (.error f)⟩] }
  | .ok (.finished v) h => { x with hub := h, errands := x.errands ++ [⟨s, j, .ended (.ok v)⟩] }
  | .ok (.waiting _) h =>
    let y : Scene := { x with hub := h, errands := x.errands ++ [⟨s, j, .waiting⟩] }
    if x.isLocked || x.errands.any Errand.isWaiting then y else y.begin x.errands.length ⟨s, j, .waiting⟩

/-- An errand goes on. One that waits takes the lock if it is free, and is refused a connection that is closed,
unless it is to close it. One that works does its next part, or settles how its work ended and gives the lock
back. -/
def go (x : Scene) (i : Nat) : Scene :=
  match x.errands[i]? with
  | none => x
  | some t =>
    match t.phase with
    | .ended _ => x
    | .waiting =>
      if x.isLocked then x
      else if !t.job.call.closes && x.hub.isClosed t.session.connection then x.turnAway i t
      else x.begin i t
    | .working (.part a next) =>
      let (r, e) := a.outcome x.hub.engine
      x.proceed i t (next r) e
    | .working (.ended r) =>
      let (v, h) := (t.job.call.settle t.session r).outcome x.hub
      x.finish i t v h

def step {id : Nat} (x : Scene) : Move id → Scene
  | .ask s _ j => x.ask s j
  | .go i => x.go i

def run {id : Nat} (x : Scene) (moves : List (Move id)) : Scene := moves.foldl step x

/-! ### What can change -/

/-- All errands are on one connection. -/
def Shares (id : Nat) (x : Scene) : Prop := ∀ t ∈ x.errands, t.session.connection = id

/-- All that can become of a scene at once. -/
inductive Goes (id : Nat) (x : Scene) : Scene → Prop
  | refused {s : Session} {j : Job} {f : Failure} (hs : s.connection = id)
    (hf : x.hub.isClosed id = true → f = .sessionClosed) :
    Goes id x { x with errands := x.errands ++ [⟨s, j, .ended (.error f)⟩] }
  | queued {s : Session} {j : Job} {parts : Nat → Routine Engine Account} (hs : s.connection = id)
    (hopen : x.hub.isClosed id = false) (hwork : j.work = .ok parts) :
    Goes id x (x.enqueue s j)
  | begun {i : Nat} {t : Errand} (ht : x.errands[i]? = some t) (hphase : t.phase = .waiting)
    (hfree : x.isLocked = false) (hpasses : t.job.call.closes = false → x.hub.isClosed id = false) :
    Goes id x (x.begin i t)
  | turnedAway {i : Nat} {t : Errand} (ht : x.errands[i]? = some t) (hphase : t.phase = .waiting)
    (hfree : x.isLocked = false) (hcloses : t.job.call.closes = false) (hclosed : x.hub.isClosed id = true) :
    Goes id x (x.turnAway i t)
  | worked {i : Nat} {t : Errand} {β : Type} {a : Action β} {next : Except Failure β → Routine Engine Account}
    {r : Except Failure β} {e : Engine} (ht : x.errands[i]? = some t) (hphase : t.phase = .working (.part a next))
    (ha : a x.hub.engine = ending r e) : Goes id x (x.proceed i t (next r) e)
  | settled {i : Nat} {t : Errand} {r : Except Failure Account} {h : Hub} (ht : x.errands[i]? = some t)
    (hphase : t.phase = .working (.ended r)) (hsame : SameConnections (x.hub.released id) h) :
    Goes id x (x.finish i t (t.job.call.answered r) h)

variable {id : Nat} {x : Scene} {P : Scene → Prop}

section Asking

variable {s : Session}

/-- Who asks for something on a closed connection is refused at once. -/
theorem ask_of_closed (hclosed : x.hub.isClosed s.connection = true) (j : Job) :
    x.ask s j = { x with errands := x.errands ++ [⟨s, j, .ended (.error .sessionClosed)⟩] } := by
  rw [ask, (Call.isJob_of_work? s j.call j.divides).closed x.hub hclosed]

theorem ask_of_unresolved (hopen : x.hub.isClosed s.connection = false) {j : Job} {f : Failure}
    (hwork : j.work = .error f) : x.ask s j = { x with errands := x.errands ++ [⟨s, j, .ended (.error f)⟩] } := by
  rw [ask, (Call.isJob_of_work? s j.call j.divides).unresolved x.hub f hopen (by rw [hwork]; rfl)]

/-- Who asks for something on an open connection begins at once if nobody else has the lock or waits for it. -/
theorem ask_of_open (hopen : x.hub.isClosed s.connection = false) {j : Job} {parts : Nat → Routine Engine Account}
    (hwork : j.work = .ok parts) :
    x.ask s j = if (x.isLocked || x.errands.any Errand.isWaiting) = true then x.enqueue s j
      else (x.enqueue s j).begin x.errands.length ⟨s, j, .waiting⟩ := by
  obtain ⟨job, henter, _⟩ := (Call.isJob_of_work? s j.call j.divides).asks x.hub _ hopen (by rw [hwork]; rfl)
  rw [ask, henter]
  rfl

/-- What holds of a scene holds after a session is asked for something. -/
theorem keeps_ask (hP : ∀ x y, P x → Goes id x y → P y) (hx : P x) (hs : s.connection = id) (j : Job) :
    P (x.ask s j) := by
  subst hs
  cases hopen : x.hub.isClosed s.connection with
  | true =>
      rw [ask_of_closed hopen]
      exact hP x _ hx (.refused rfl fun _ => rfl)
  | false =>
      cases hwork : j.work with
      | error f =>
          rw [ask_of_unresolved hopen hwork]
          exact hP x _ hx (.refused rfl fun hclosed => absurd (hopen.symm.trans hclosed) Bool.false_ne_true)
      | ok parts =>
          rw [ask_of_open hopen hwork]
          have hy := hP x _ hx (.queued rfl hopen hwork)
          split
          · exact hy
          · next hfree =>
            refine hP _ _ hy (.begun List.getElem?_concat_length rfl ?_ fun hcloses => ?_)
            · exact (Bool.or_eq_false_iff.1 (Bool.eq_false_iff.2 hfree)).1
            · rw [Hub.isClosed, enqueue, j.call.connection_asked hopen, hcloses]

end Asking

section Going

variable {i : Nat} {t : Errand}

/-- Whoever comes to have the lock is refused a connection that is closed. -/
theorem go_of_refused (ht : x.errands[i]? = some t) (hphase : t.phase = .waiting) (hfree : x.isLocked = false)
    (hcloses : t.job.call.closes = false) (hclosed : x.hub.isClosed t.session.connection = true) :
    x.go i = x.turnAway i t := by
  unfold go
  rw [ht]
  dsimp only
  rw [hphase]
  dsimp only
  rw [hfree, hcloses, hclosed]
  rfl

theorem go_of_passed (ht : x.errands[i]? = some t) (hphase : t.phase = .waiting) (hfree : x.isLocked = false)
    (hpasses : t.job.call.closes = false → x.hub.isClosed t.session.connection = false) :
    x.go i = x.begin i t := by
  unfold go
  rw [ht]
  dsimp only
  rw [hphase]
  dsimp only
  rw [hfree, if_neg Bool.false_ne_true, if_neg]
  intro hrefused
  obtain ⟨hcloses, hclosed⟩ := Bool.and_eq_true_iff.1 hrefused
  cases (hpasses (Bool.not_eq_eq_eq_not.1 hcloses)).symm.trans hclosed

theorem go_of_part {β : Type} {a : Action β} {next : Except Failure β → Routine Engine Account} {r : Except Failure β}
    {e : Engine} (ht : x.errands[i]? = some t) (hphase : t.phase = .working (.part a next))
    (ha : a x.hub.engine = ending r e) : x.go i = x.proceed i t (next r) e := by
  unfold go
  rw [ht]
  dsimp only
  rw [hphase]
  dsimp only
  rw [outcome_of_ending ha]

theorem exists_go_settled {r : Except Failure Account} (ht : x.errands[i]? = some t)
    (hphase : t.phase = .working (.ended r)) :
    ∃ h, t.job.call.settle t.session r x.hub = ending (t.job.call.answered r) h ∧
      SameConnections (x.hub.released t.session.connection) h ∧ x.go i = x.finish i t (t.job.call.answered r) h := by
  obtain ⟨h, hsettle, hsame⟩ := t.job.call.settle_run t.session r x.hub
  refine ⟨h, hsettle, hsame, ?_⟩
  unfold go
  rw [ht]
  dsimp only
  rw [hphase]
  dsimp only
  rw [outcome_of_ending hsettle]

/-- Whoever waits goes on waiting while another has the lock. -/
theorem go_of_locked (ht : x.errands[i]? = some t) (hphase : t.phase = .waiting) (hlocked : x.isLocked = true) :
    x.go i = x := by
  unfold go
  rw [ht]
  dsimp only
  rw [hphase]
  exact if_pos hlocked

theorem go_of_ended {v : Except Failure Value} (ht : x.errands[i]? = some t) (hphase : t.phase = .ended v) :
    x.go i = x := by
  unfold go
  rw [ht]
  dsimp only
  rw [hphase]

end Going

/-- What holds of a scene holds after an errand goes on. -/
theorem keeps_go (hP : ∀ x y, P x → Goes id x y → P y) (hx : P x) (hshares : x.Shares id) (i : Nat) :
    P (x.go i) := by
  cases ht : x.errands[i]? with
  | none =>
      unfold go
      rw [ht]
      exact hx
  | some t =>
      have hs : t.session.connection = id := hshares t (List.mem_of_getElem? ht)
      cases hphase : t.phase with
      | ended v => exact (go_of_ended ht hphase).symm ▸ hx
      | working rest =>
          cases rest with
          | part a next =>
              obtain ⟨r, hr⟩ := exists_ending a x.hub.engine
              rw [go_of_part ht hphase hr]
              exact hP x _ hx (.worked ht hphase hr)
          | ended r =>
              obtain ⟨h, _, hsame, hgo⟩ := exists_go_settled ht hphase
              rw [hgo]
              exact hP x _ hx (.settled ht hphase (hs ▸ hsame))
      | waiting =>
          cases hfree : x.isLocked with
          | true => exact (go_of_locked ht hphase hfree).symm ▸ hx
          | false =>
              by_cases hpasses : t.job.call.closes = false → x.hub.isClosed id = false
              · rw [go_of_passed ht hphase hfree (hs ▸ hpasses)]
                exact hP x _ hx (.begun ht hphase hfree hpasses)
              · obtain ⟨hcloses, hclosed⟩ := Classical.not_imp.1 hpasses
                have hclosed : x.hub.isClosed id = true := (Bool.not_eq_false _).mp hclosed
                rw [go_of_refused ht hphase hfree hcloses (hs ▸ hclosed)]
                exact hP x _ hx (.turnedAway ht hphase hfree hcloses hclosed)

/-- What is kept by all that can become of a scene at once holds of it after any moves. -/
theorem keeps_run (hP : ∀ x y, P x → Goes id x y → P y) (hshares : ∀ x, P x → x.Shares id) (hx : P x)
    (moves : List (Move id)) : P (x.run moves) := by
  induction moves generalizing x with
  | nil => exact hx
  | cons m moves ih =>
      cases m with
      | ask s hs j => exact ih (keeps_ask hP hx hs j)
      | go i => exact ih (keeps_go hP hx (hshares x hx) i)

end Scene
end RecordStore
