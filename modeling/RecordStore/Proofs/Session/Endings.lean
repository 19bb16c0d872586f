import RecordStore.Proofs.Session.HandedBack
import RecordStore.Proofs.Session.Parts
import RecordStore.Proofs.Session.Serial

/-!
How errands on one connection end. All of them come to an end when they are let go on. Those that have not begun
when closing is asked for are refused, and never touch the store.
-/

namespace RecordStore

open Effect Session

namespace Scene

variable {id : Nat} {h₀ : Hub} {x y : Scene} {i : Nat} {t : Errand}

theorem run_append (x : Scene) (before after : List (Move id)) :
    x.run (before ++ after) = (x.run before).run after := List.foldl_append

/-! ### Coming to an end -/

theorem finish_proceed (x : Scene) (i : Nat) (t : Errand) (rest : Routine Engine Account) (e : Engine)
    (v : Except Failure Value) (h : Hub) :
    (x.proceed i t rest e).finish i { t with phase := .working rest } v h = x.finish i t v h := by
  unfold finish proceed
  rw [List.set_set]

/-- Work comes to an end when it is let go on, which is what it comes to as a whole, settled. -/
theorem exists_run_of_working (id : Nat) (rest : Routine Engine Account) (ht : x.errands[i]? = some t)
    (hphase : t.phase = .working rest) :
    ∃ n v h, x.run (List.replicate n (.go i : Move id)) = x.finish i t v h ∧
      ∀ r e, rest.whole x.hub.engine = ending r e →
        t.job.call.settle t.session r { x.hub with engine := e } = ending v h := by
  induction rest generalizing x t with
  | ended r =>
      obtain ⟨h, hsettle, _, hgo⟩ := exists_go_settled ht hphase
      refine ⟨1, _, h, hgo, fun r' e hwhole => ?_⟩
      obtain ⟨rfl, rfl⟩ := ending_inj ((Routine.whole_ended r _).symm.trans hwhole)
      exact hsettle
  | part a next ih =>
      obtain ⟨r, hr⟩ := exists_ending a x.hub.engine
      have hself : (x.proceed i t (next r) (a.after x.hub.engine)).errands[i]? =
          some { t with phase := .working (next r) } := List.getElem?_set_self (List.getElem?_eq_some_iff.1 ht).1
      obtain ⟨n, v, h, hrun, hsettle⟩ := ih r hself rfl
      refine ⟨n + 1, v, h, ?_, fun r' e hwhole => hsettle r' e ((Routine.whole_part hr next).symm.trans hwhole)⟩
      rw [finish_proceed] at hrun
      rw [← hrun, ← go_of_part ht hphase hr]
      rfl

/-- An errand that waits comes to an end when nobody has the lock: it is refused a connection that is closed,
unless it is to close it, and else comes to what its work comes to as a whole, settled. -/
theorem exists_run_of_waiting (id : Nat) (ht : x.errands[i]? = some t) (hphase : t.phase = .waiting)
    (hfree : x.isLocked = false) :
    ∃ n v, (x.run (List.replicate n (.go i : Move id))).errands = x.errands.set i { t with phase := .ended v } ∧
      (t.job.call.closes = false → x.hub.isClosed t.session.connection = true → v = .error .sessionClosed ∧
        (x.run (List.replicate n (.go i : Move id))).hub = x.hub.released t.session.connection) ∧
      ((t.job.call.closes = false → x.hub.isClosed t.session.connection = false) →
        ∀ r e, (t.job.parts (x.hub.connection t.session.connection).db).whole x.hub.engine = ending r e →
          t.job.call.settle t.session r { x.hub with engine := e } =
            ending v (x.run (List.replicate n (.go i : Move id))).hub) := by
  by_cases hpasses : t.job.call.closes = false → x.hub.isClosed t.session.connection = false
  · have hself : (x.begin i t).errands[i]? = some _ := List.getElem?_set_self (List.getElem?_eq_some_iff.1 ht).1
    obtain ⟨n, v, h, hrun, hsettle⟩ := exists_run_of_working id _ hself rfl
    have hgo : x.run (List.replicate (n + 1) (.go i : Move id)) =
        (x.begin i t).run (List.replicate n (.go i : Move id)) := by
      rw [← go_of_passed ht hphase hfree hpasses]
      rfl
    rw [← hgo] at hrun
    refine ⟨n + 1, v, ?_, fun hcloses hclosed => ?_, fun _ => ?_⟩
    · rw [hrun]
      exact List.set_set _
    · cases (hpasses hcloses).symm.trans hclosed
    · rw [hrun]
      exact hsettle
  · obtain ⟨hcloses, hclosed⟩ := Classical.not_imp.1 hpasses
    have hgo := go_of_refused ht hphase hfree hcloses ((Bool.not_eq_false _).mp hclosed)
    exact ⟨1, _, congrArg Scene.errands hgo, fun _ _ => ⟨rfl, congrArg Scene.hub hgo⟩, fun h => (hpasses h).elim⟩

/-- Letting an errand that waits go on to its end does what its call left to be done at its turn. -/
theorem exists_run_eq_job {parts : Nat → Routine Engine Account} {job : Task Value} (ht : x.errands[i]? = some t)
    (hphase : t.phase = .waiting) (hfree : x.isLocked = false) (hwork : t.job.work = .ok parts)
    (hjob : t.job.call.IsTurn t.session true (fun db => (parts db).whole) job) :
    ∃ n v, (x.run (List.replicate n (.go i : Move id))).errands = x.errands.set i { t with phase := .ended v } ∧
      job x.hub = ending v (x.run (List.replicate n (.go i : Move id))).hub := by
  obtain ⟨n, v, herrands, hrefused, hpassed⟩ := exists_run_of_waiting id ht hphase hfree
  refine ⟨n, v, herrands, ?_⟩
  by_cases hpasses : t.job.call.closes = false → x.hub.isClosed t.session.connection = false
  · rw [Job.parts, hwork] at hpassed
    obtain ⟨r, hr⟩ := exists_ending (parts (x.hub.connection t.session.connection).db).whole x.hub.engine
    exact (hjob.done x.hub r _ (fun _ => hpasses) hr).trans (hpassed hpasses r _ hr)
  · obtain ⟨hcloses, hclosed⟩ := Classical.not_imp.1 hpasses
    have hclosed : x.hub.isClosed t.session.connection = true := (Bool.not_eq_false _).mp hclosed
    obtain ⟨rfl, hhub⟩ := hrefused hcloses hclosed
    rw [hhub]
    exact hjob.refused x.hub rfl hcloses hclosed

/-- An errand comes to an end when nobody else has the lock. -/
theorem exists_ended (ht : x.errands[i]? = some t) (hpending : t.isPending = true)
    (hturn : t.isWorking = false → x.isLocked = false) :
    ∃ n v, (x.run (List.replicate n (.go i : Move id))).errands = x.errands.set i { t with phase := .ended v } := by
  cases hphase : t.phase with
  | ended v =>
      rw [Errand.isPending, hphase] at hpending
      cases hpending
  | working rest =>
      obtain ⟨n, v, h, hrun, _⟩ := exists_run_of_working id rest ht hphase
      exact ⟨n, v, congrArg Scene.errands hrun⟩
  | waiting =>
      obtain ⟨n, v, herrands, _⟩ :=
        exists_run_of_waiting id ht hphase (hturn (by rw [Errand.isWorking, hphase]))
      exact ⟨n, v, herrands⟩

/-- There is always an errand that can be let go on to its end, unless all are over. -/
theorem IsOrderly.exists_turn (hx : x.IsOrderly id h₀) (hsome : ∃ t ∈ x.errands, t.isPending = true) :
    ∃ (i : Nat) (t : Errand), x.errands[i]? = some t ∧ t.isPending = true ∧
      (t.isWorking = false → x.isLocked = false) := by
  obtain ⟨earlier, k, _, _, hstands⟩ := hx.order
  cases hstands with
  | free hfree =>
      obtain ⟨t, hmem, hpending⟩ := hsome
      obtain ⟨i, ht⟩ := List.getElem?_of_mem hmem
      exact ⟨i, t, ht, hpending, fun _ => hfree⟩
  | busy _ ht hphase =>
      refine ⟨_, _, ht, by rw [Errand.isPending, hphase], fun hidle => ?_⟩
      rw [Errand.isWorking, hphase] at hidle
      cases hidle

/-- All errands come to an end when they are let go on one after the other. -/
theorem IsOrderly.exists_all_ended (hx : x.IsOrderly id h₀) :
    ∃ rest : List Nat, ∀ t ∈ (x.run (rest.map (.go : Nat → Move id))).errands, t.isPending = false := by
  generalize hn : x.errands.countP Errand.isPending = n
  induction n generalizing x with
  | zero =>
      refine ⟨[], fun t ht => Bool.eq_false_iff.2 fun hpending => ?_⟩
      exact List.countP_eq_zero.1 hn t ht hpending
  | succ n ih =>
      have hsome : 0 < x.errands.countP Errand.isPending := hn ▸ Nat.succ_pos n
      obtain ⟨i, t, ht, hpending, hturn⟩ := hx.exists_turn (List.countP_pos_iff.1 hsome)
      obtain ⟨m, v, hended⟩ := exists_ended ht hpending hturn
      have hcount := countP_set_add (p := Errand.isPending) (b := { t with phase := .ended v }) ht
      rw [← hended, hpending, hn] at hcount
      obtain ⟨rest, hrest⟩ := ih (hx.run _) (Nat.succ.inj hcount)
      refine ⟨List.replicate m i ++ rest, ?_⟩
      rw [List.map_append, List.map_replicate, run_append]
      exact hrest

/-! ### Coming too late -/

/-- An errand that has not begun, and is not to close the connection: it waits, or is still to be asked for. -/
structure HasNotBegun (x : Scene) (i : Nat) : Prop where
  notStarted : i ∉ x.started
  waits : ∀ t, x.errands[i]? = some t → t.phase = .waiting ∧ t.job.call.closes = false

/-- An errand that comes too late: it does not begin, and is refused or is still to be. -/
structure ComesTooLate (x : Scene) (i : Nat) : Prop where
  notStarted : i ∉ x.started
  refused : ∀ t, x.errands[i]? = some t → t.phase = .ended (.error .sessionClosed) ∨
    t.phase = .waiting ∧ t.job.call.closes = false

theorem HasNotBegun.comesTooLate (h : x.HasNotBegun i) : x.ComesTooLate i :=
  ⟨h.notStarted, fun t ht => .inr (h.waits t ht)⟩

theorem ComesTooLate.ne_of_working (hi : x.ComesTooLate i) {j : Nat} {rest : Routine Engine Account}
    (ht : x.errands[j]? = some t) (hphase : t.phase = .working rest) : i ≠ j := by
  rintro rfl
  rcases hi.refused t ht with hended | ⟨hwaiting, _⟩
  · cases hphase.symm.trans hended
  · cases hphase.symm.trans hwaiting

/-- Whoever comes too late keeps doing so as long as the connection is closed. -/
theorem Goes.comesTooLate (hgoes : Goes id x y) (hclosed : x.hub.isClosed id = true) (hi : x.ComesTooLate i) :
    y.ComesTooLate i := by
  have hset {j : Nat} {u : Errand} (hne : i ≠ j) : ∀ t, (x.errands.set j u)[i]? = some t →
      t.phase = .ended (.error .sessionClosed) ∨ t.phase = .waiting ∧ t.job.call.closes = false :=
    fun t ht => hi.refused t ((List.getElem?_set_ne hne.symm).symm.trans ht)
  cases hgoes with
  | refused _ hf =>
      refine ⟨hi.notStarted, fun t ht => ?_⟩
      rcases eq_some_of_getElem?_concat ht with hold | ⟨_, rfl⟩
      · exact hi.refused t hold
      · exact .inl (by rw [hf hclosed])
  | queued _ hopen => cases hopen.symm.trans hclosed
  | @begun j u ht hphase _ hpasses =>
      have hne : i ≠ j := by
        rintro rfl
        rcases hi.refused u ht with hended | ⟨_, hcloses⟩
        · cases hphase.symm.trans hended
        · cases (hpasses hcloses).symm.trans hclosed
      refine ⟨fun hmem => ?_, hset hne⟩
      rcases List.mem_append.1 hmem with hmem | hmem
      · exact hi.notStarted hmem
      · exact hne (List.mem_singleton.1 hmem)
  | turnedAway ht =>
      refine ⟨hi.notStarted, fun t ht => ?_⟩
      rcases eq_some_of_getElem?_set ht with ⟨_, rfl⟩ | ⟨_, hold⟩
      · exact .inl rfl
      · exact hi.refused t hold
  | worked ht hphase => exact ⟨hi.notStarted, hset (hi.ne_of_working ht hphase)⟩
  | settled ht hphase => exact ⟨hi.notStarted, hset (hi.ne_of_working ht hphase)⟩

/-- Whoever has not begun when the connection is closed comes too late, whatever happens then. -/
theorem IsOrderly.comesTooLate_run (hx : x.IsOrderly id h₀) (hclosed : x.hub.isClosed id = true)
    (hi : x.ComesTooLate i) (after : List (Move id)) :
    (x.run after).hub.isClosed id = true ∧ (x.run after).ComesTooLate i := by
  refine (keeps_run (P := fun y => y.IsOrderly id h₀ ∧ y.hub.isClosed id = true ∧ y.ComesTooLate i)
    (fun x y ⟨hx, hclosed, hi⟩ hgoes => ⟨hgoes.isOrderly x y hx, ?_, hgoes.comesTooLate hclosed hi⟩)
    (fun x ⟨hx, _⟩ t ht => (hx.placed t ht).shares) ⟨hx, hclosed, hi⟩ after).2
  exact (hgoes.connection hx.placed hx.made).2.2 hclosed

/-- Whoever asks for a connection to be closed closes it for all that come after. -/
theorem isClosed_ask {s : Session} {j : Job} (hs : s.connection = id) (hcloses : j.call.closes = true) :
    (x.ask s j).hub.isClosed id = true := by
  subst hs
  cases hopen : x.hub.isClosed s.connection with
  | true =>
      rw [ask_of_closed hopen]
      exact hopen
  | false =>
      have hasked : (j.call.asked s x.hub).isClosed s.connection = true := by
        rw [Hub.isClosed, j.call.connection_asked hopen, hcloses]
      cases hwork : j.work with
      | error f =>
          obtain ⟨work, hcloser⟩ := Call.exists_work_of_closes hcloses
          have hdivides := hcloser.symm.trans j.divides
          rw [hwork] at hdivides
          cases hdivides
      | ok parts =>
          rw [ask_of_open hopen hwork]
          split
          · exact hasked
          · exact hasked

/-! ### One at a time -/

/-- What becomes of an errand that comes too late: it is not begun. It is refused, or waits to be refused when it
comes to have the lock, and never changes the store. -/
structure IsTurnedAway (x : Scene) (i : Nat) : Prop where
  notStarted : i ∉ x.started
  refused : ∀ t, x.errands[i]? = some t → t.phase = .ended (.error .sessionClosed) ∨
    t.phase = .waiting ∧ (x.isLocked = false →
      (x.go i).errands[i]? = some { t with phase := .ended (.error .sessionClosed) } ∧
      (x.go i).hub.engine = x.hub.engine)

theorem ComesTooLate.isTurnedAway (hi : x.ComesTooLate i) (hplaced : ∀ t ∈ x.errands, t.IsFor id)
    (hclosed : x.hub.isClosed id = true) : x.IsTurnedAway i := by
  refine ⟨hi.notStarted, fun t ht => (hi.refused t ht).imp_right fun ⟨hphase, hcloses⟩ => ⟨hphase, fun hfree => ?_⟩⟩
  have hs := (hplaced t (List.mem_of_getElem? ht)).shares
  rw [go_of_refused ht hphase hfree hcloses (hs ▸ hclosed)]
  exact ⟨List.getElem?_set_self (List.getElem?_eq_some_iff.1 ht).1, rfl⟩

/-- What is promised of errands on one connection at any moment. -/
structure IsSerialised (id : Nat) (h₀ : Hub) (x : Scene) : Prop where
  /-- At most one errand works. -/
  exclusive : ∀ i j, x.IsWorking i → x.IsWorking j → i = j
  /-- Those that have begun did their work one after another, each of them once. -/
  order : x.HasOrder id h₀
  once : x.started.Nodup
  /-- Whoever works or has succeeded is one of them. -/
  recorded : ∀ i t, x.errands[i]? = some t → t.hasBegun = true → i ∈ x.started
  /-- At most one errand has closed the connection, -/
  closedOnce : ∀ i j, x.HasClosed i → x.HasClosed j → i = j
  /-- and nobody works since then. -/
  closedAlone : ∀ i, x.HasClosed i → ∀ j, ¬x.IsWorking j
  /-- When closing is asked for, the connection counts as closed. -/
  closing : ∀ s : Session, s.connection = id → ∀ j : Job, j.call.closes = true → (x.ask s j).hub.isClosed id = true
  /-- Whoever has not begun by then is refused. -/
  late : x.hub.isClosed id = true → ∀ i, x.HasNotBegun i → ∀ after : List (Move id), (x.run after).IsTurnedAway i
  /-- All errands can come to an end. -/
  ends : ∃ rest : List Nat, ∀ t ∈ (x.run (rest.map (.go : Nat → Move id))).errands, t.isPending = false

theorem HasOrder.exclusive (hx : x.HasOrder id h₀) {j : Nat} (hi : x.IsWorking i) (hj : x.IsWorking j) : i = j := by
  obtain ⟨earlier, k, _, _, hstands⟩ := hx
  cases hstands with
  | free _ hidle => exact (hidle i hi).elim
  | busy _ _ _ honly => exact (honly i hi).trans (honly j hj).symm

theorem HasOrder.closedAlone (hx : x.HasOrder id h₀) (hi : x.HasClosed i) (j : Nat) : ¬x.IsWorking j := by
  obtain ⟨earlier, k, _, hleaves, hstands⟩ := hx
  cases hstands with
  | free _ hidle => exact hidle j
  | busy _ _ _ _ _ hopen => cases hopen.symm.trans (hleaves.closed.2 ⟨i, hi⟩)

theorem IsOrderly.closedOnce (hx : x.IsOrderly id h₀) {j : Nat} (hi : x.HasClosed i) (hj : x.HasClosed j) :
    i = j := by
  obtain ⟨t, ht, hclosed⟩ := hi
  obtain ⟨u, hu, hclosed'⟩ := hj
  exact eq_of_countP_le_one (hx.closers.trans (Bool.toNat_le _)) ht hu (Errand.isCloser_of_hasClosed hclosed)
    (Errand.isCloser_of_hasClosed hclosed')

/-- However sessions that share an open connection are asked for things, and however these go on between each
other's parts: they are done one at a time, in the order in which they begin, and closing is the last of them. -/
theorem errands_are_serialised (hopen : h₀.isClosed id = false) (hjobs : (h₀.connection id).jobs = 0)
    (hrest : h₀.engine.IsAtRest) (hdb : (h₀.engine.connection (h₀.connection id).db).isClosed = false)
    (moves : List (Move id)) : ((opening h₀).run moves).IsSerialised id h₀ := by
  have hx := (isOrderly_opening hopen hjobs hrest hdb).run moves
  refine ⟨fun i j => hx.order.exclusive, hx.order, hx.once, hx.recorded, fun i j => hx.closedOnce,
    fun i => hx.order.closedAlone, fun s hs j => isClosed_ask hs, fun hclosed i hi after => ?_, hx.exists_all_ended⟩
  obtain ⟨hclosed, hi⟩ := hx.comesTooLate_run hclosed hi.comesTooLate after
  exact hi.isTurnedAway (hx.run after).placed hclosed

/-! ### Cards -/

/-- Somebody else's session of the hub of cards. -/
def otherCards : Session := ⟨0, 0, ["cards"]⟩

def addCard : Job := .ofCall (.add (.text "cards") [.dict card]) _ rfl

def countCards : Job := .ofCall (.count (.text "cards") .null) _ rfl

def closeCards : Job := .ofCall .close _ rfl

/-- A card is added. Between the parts of that the cards are to be counted, and then the session is to be closed,
so that the cards are not counted any more. -/
def cardsMoves : List (Move 0) :=
  [.ask cards rfl addCard, .go 0, .ask otherCards rfl countCards, .go 0, .ask cards rfl closeCards, .go 1,
    .ask otherCards rfl closeCards, .go 0, .go 0, .go 0, .go 0, .go 1, .go 2, .go 2, .go 2]

theorem errands_are_serialised_cards :
    ((opening (cardsHub "id")).run cardsMoves).IsSerialised 0 (cardsHub "id") ∧
    ((opening (cardsHub "id")).run cardsMoves).started = [0, 2] ∧
    ((opening (cardsHub "id")).run cardsMoves).errands.map Errand.hasClosed = [false, false, true, false] :=
  ⟨errands_are_serialised rfl rfl (isAtRest_cardsHub "id") rfl cardsMoves, by decide +kernel, by decide +kernel⟩

end Scene
end RecordStore
