import Mathlib.Data.List.Induction
import RecordStore.Proofs.Results
import RecordStore.Script.Calls

/-!
Building queries goes one way. Stages of one query share it, and stay callable after the query has left their
state. All the same a query leaves the initial state once and keeps the one that it comes to, with its window,
and what writes or counts stays as it is. Filters are added in the order of calls, calls that fail change
nothing, and what becomes of a query is settled by the calls on its own stages.
-/

namespace RecordStore

/-- The filters that the arguments of `filter` add. -/
def Filter.ofArguments : List Value → List Filter
  | [.callable f] => [.predicate f]
  | [.text name, v] => if (Value.text name).isTrue then [.field name v] else []
  | _ => []

/-! ### One call -/

namespace QueryCall

/-- The calls that a stage has. -/
def isOn : Stage → QueryCall → Bool
  | .query, _ => true
  | .keyQuery, filter _ | .keyQuery, desc | .keyQuery, distinct | .keyQuery, map _ => true
  | _, _ => false

def filters : QueryCall → List Filter
  | filter args => Filter.ofArguments args
  | _ => []

theorem isOn_of_ofName {stage : Stage} {name : String} {args : List Value} {call : QueryCall}
    (h : ofName stage name args = .ok call) : call.isOn stage = true := by
  unfold ofName at h
  split at h
  case h_13 => cases h
  case h_1 | h_2 =>
    cases h
    rfl
  all_goals
    obtain ⟨_, _, rfl⟩ := map_eq_ok_iff.1 h
    rfl

end QueryCall

namespace Query

variable {q q' q'' : Query}

theorem addFilter_eq {args : List Value} (h : q.addFilter args = .ok q') :
    q' = { q with filters := q.filters ++ Filter.ofArguments args } := by
  have hnone : q = { q with filters := q.filters ++ [] } := by rw [List.append_nil]
  unfold addFilter at h
  split at h
  · cases h
    exact hnone
  next first rest =>
    split at h
    next hfalse =>
      -- what does not count as true is neither a function nor a name
      cases h
      have hadds : Filter.ofArguments (first :: rest) = [] := by
        unfold Filter.ofArguments
        split
        next heq =>
          cases heq
          cases hfalse
        next heq =>
          cases heq
          exact if_neg (by simpa using hfalse)
        · rfl
      rw [hadds]
      exact hnone
    next htrue =>
      split at h
      · cases h
        rfl
      · cases h
      · cases h
        rw [Filter.ofArguments, if_pos (by simpa using htrue)]
      · cases h
      · cases h

theorem ensure_eq_ok_iff {stage : Stage} {call : String} :
    q.ensure stage call = .ok () ↔ q.state = stage.state := by
  rw [ensure]
  split
  · exact iff_of_true rfl ‹_›
  · exact iff_of_false nofun ‹_›

/-- All that a call can do to a query, with the filters that it adds: windows, rules and leaving the state are
for queries in the initial state alone. -/
inductive Changes (q : Query) : List Filter → Query → Prop
  | filter (h : q.state = .initial ∨ q.state = .keys) (added : List Filter) :
      q.Changes added { q with filters := q.filters ++ added }
  | adjust (h : q.state = .initial ∨ q.state = .keys) (descending distinct : Bool)
      (mapper : Option (Callable Value)) : q.Changes [] { q with descending, distinct, mapper }
  | limit (h : q.state = .initial) (w : Window) : q.Changes [] { q with window := some w }
  | keys (h : q.state = .initial) : q.Changes [] { q with state := .keys }
  | modify (h : q.state = .initial) (rule : Rule) : q.Changes [] { q with rule := some rule, state := .write }
  | count (h : q.state = .initial) : q.Changes [] { q with state := .count }

/-- A call that is carried out finds the query in the state of the stage, and does one of these things. -/
theorem changes_of_apply {stage stage' : Stage} {call : QueryCall} (hon : call.isOn stage = true)
    (h : q.apply stage call = .ok (stage', q')) : q.Changes call.filters q' := by
  have hstate {name : String} {passed : Unit} (hpassed : q.ensure stage name = .ok passed) :
      q.state = .initial ∨ q.state = .keys := by
    rw [ensure_eq_ok_iff.1 hpassed]
    cases stage
    · exact .inl rfl
    · exact .inr rfl
    · exact .inl rfl
  have hinitial {name : String} {passed : Unit} (hpassed : q.ensure stage name = .ok passed)
      (hquery : stage = .query) : q.state = .initial := by
    rw [ensure_eq_ok_iff.1 hpassed, hquery]
    rfl
  cases call with
  | filter args =>
      obtain ⟨_, hpassed, h⟩ := bind_eq_ok_iff.1 h
      obtain ⟨_, hadd, h⟩ := bind_eq_ok_iff.1 h
      cases h
      rw [addFilter_eq hadd]
      exact .filter (hstate hpassed) _
  | desc =>
      obtain ⟨_, hpassed, h⟩ := bind_eq_ok_iff.1 h
      cases h
      exact .adjust (hstate hpassed) true q.distinct q.mapper
  | distinct =>
      obtain ⟨_, hpassed, h⟩ := bind_eq_ok_iff.1 h
      cases h
      exact .adjust (hstate hpassed) q.descending true q.mapper
  | map f =>
      obtain ⟨_, hpassed, h⟩ := bind_eq_ok_iff.1 h
      obtain ⟨f, _, h⟩ := bind_eq_ok_iff.1 h
      cases h
      exact .adjust (hstate hpassed) q.descending q.distinct (some f)
  | limit first second =>
      obtain ⟨w, _, h⟩ := bind_eq_ok_iff.1 h
      obtain ⟨_, hpassed, h⟩ := bind_eq_ok_iff.1 h
      cases h
      exact .limit (hinitial hpassed (by cases stage <;> trivial)) w
  | keys =>
      obtain ⟨_, hpassed, h⟩ := bind_eq_ok_iff.1 h
      cases h
      exact .keys (hinitial hpassed (by cases stage <;> trivial))
  | modify rule =>
      obtain ⟨rule, _, h⟩ := bind_eq_ok_iff.1 h
      obtain ⟨_, hpassed, h⟩ := bind_eq_ok_iff.1 h
      cases h
      exact .modify (hinitial hpassed (by cases stage <;> trivial)) rule
  | count =>
      obtain ⟨_, hpassed, h⟩ := bind_eq_ok_iff.1 h
      cases h
      exact .count (hinitial hpassed (by cases stage <;> trivial))

/-- A query writes when it has a rule, and then alone. -/
def WritesByRule (q : Query) : Prop := q.rule.isSome = true ↔ q.state = .write

/-- One way from a query to a later one. -/
structure GoesTo (q q' : Query) : Prop where
  state : q.state ≠ .initial → q'.state = q.state
  window : q.state ≠ .initial → q'.window = q.window
  settled : q.state = .write ∨ q.state = .count → q' = q

theorem GoesTo.refl (q : Query) : q.GoesTo q := ⟨fun _ => rfl, fun _ => rfl, fun _ => rfl⟩

theorem GoesTo.trans (h : q.GoesTo q') (h' : q'.GoesTo q'') : q.GoesTo q'' where
  state hleft := by
    have hstate := h.state hleft
    exact (h'.state (hstate ▸ hleft)).trans hstate
  window hleft := (h'.window (h.state hleft ▸ hleft)).trans (h.window hleft)
  settled hsettled := by
    obtain rfl := h.settled hsettled
    exact h'.settled hsettled

namespace Changes

variable {added : List Filter}

theorem filters_eq (h : q.Changes added q') : q'.filters = q.filters ++ added := by
  cases h with
  | filter => rfl
  | _ => exact (List.append_nil _).symm

theorem goesTo (h : q.Changes added q') : q.GoesTo q' := by
  have hopen (hstate : q.state = .initial ∨ q.state = .keys) : ¬(q.state = .write ∨ q.state = .count) := by
    rcases hstate with hstate | hstate <;> simp [hstate]
  cases h with
  | filter hstate | adjust hstate =>
      exact ⟨fun _ => rfl, fun _ => rfl, fun hsettled => absurd hsettled (hopen hstate)⟩
  | limit hstate | keys hstate | modify hstate | count hstate =>
      refine ⟨fun hleft => absurd hstate hleft, fun hleft => absurd hstate hleft, fun hsettled => ?_⟩
      exact absurd hsettled (hopen (.inl hstate))

theorem writesByRule (h : q.Changes added q') (hq : q.WritesByRule) : q'.WritesByRule := by
  have hnone (hstate : q.state = .initial) : ¬q.rule.isSome = true := fun hsome =>
    nomatch hstate.symm.trans (hq.1 hsome)
  cases h with
  | filter | adjust | limit => exact hq
  | keys hstate | count hstate => exact iff_of_false (hnone hstate) nofun
  | modify => exact iff_of_true rfl rfl

end Changes

/-- A query starts in the initial state, and writes nothing. -/
theorem start_spec {collection index : Value} {call : RangeCall} (h : start collection index call = .ok q) :
    q.state = .initial ∧ q.WritesByRule := by
  unfold start at h
  split at h
  · rw [addFilter_eq h]
    exact ⟨rfl, iff_of_false nofun nofun⟩
  · cases h
    exact ⟨rfl, iff_of_false nofun nofun⟩

end Query

namespace Script

/-! ### Calls on one query -/

namespace Call

variable {c : Call} {stage stage' : Stage} {q q' : Query}

/-- The filters that a call on a stage adds if it is carried out. -/
def filters (c : Call) (stage : Stage) : List Filter :=
  match c.args.bind (QueryCall.ofName stage c.name) with
  | .ok call => call.filters
  | .error _ => []

theorem changes_of_apply (h : c.apply stage q = .ok (stage', q')) : q.Changes (c.filters stage) q' := by
  obtain ⟨args, hargs, h⟩ := bind_eq_ok_iff.1 h
  obtain ⟨call, hcall, h⟩ := bind_eq_ok_iff.1 h
  have hfilters : c.filters stage = call.filters := by
    rw [filters, hargs, Except.bind, hcall]
  rw [hfilters]
  exact Query.changes_of_apply (QueryCall.isOn_of_ofName hcall) h

theorem start_spec {collection index : Value} (h : c.start collection index = .ok q) :
    q.state = .initial ∧ q.WritesByRule := by
  obtain ⟨args, _, h⟩ := bind_eq_ok_iff.1 h
  obtain ⟨call, _, h⟩ := bind_eq_ok_iff.1 h
  exact Query.start_spec h

/-- A query after a call on a stage; a call that fails leaves it. -/
def after (c : Call) (stage : Stage) (q : Query) : Query :=
  match c.apply stage q with
  | .ok (_, q') => q'
  | .error _ => q

/-- The filters that a call on a stage does add. -/
def added (c : Call) (stage : Stage) (q : Query) : List Filter :=
  match c.apply stage q with
  | .ok _ => c.filters stage
  | .error _ => []

theorem after_spec (c : Call) (stage : Stage) (q : Query) :
    q.GoesTo (c.after stage q) ∧ (c.after stage q).filters = q.filters ++ c.added stage q ∧
      (q.WritesByRule → (c.after stage q).WritesByRule) := by
  unfold after added
  cases happly : c.apply stage q with
  | error f => exact ⟨.refl q, (List.append_nil _).symm, id⟩
  | ok made =>
      have hchanges := changes_of_apply happly
      exact ⟨hchanges.goesTo, hchanges.filters_eq, hchanges.writesByRule⟩

end Call

/-- A query after calls on its stages. -/
def replay (q : Query) (calls : List (Stage × Call)) : Query :=
  calls.foldl (fun q (stage, c) => c.after stage q) q

/-- The filters that calls on stages of a query add, one after the other. -/
def addedBy : Query → List (Stage × Call) → List Filter
  | _, [] => []
  | q, (stage, c) :: rest => c.added stage q ++ addedBy (c.after stage q) rest

theorem replay_spec (q : Query) (calls : List (Stage × Call)) :
    q.GoesTo (replay q calls) ∧ (replay q calls).filters = q.filters ++ addedBy q calls ∧
      (q.WritesByRule → (replay q calls).WritesByRule) := by
  induction calls generalizing q with
  | nil => exact ⟨.refl q, (List.append_nil _).symm, id⟩
  | cons made rest ih =>
      obtain ⟨hgoes, hfilters, hwrites⟩ := made.2.after_spec made.1 q
      obtain ⟨ihgoes, ihfilters, ihwrites⟩ := ih (made.2.after made.1 q)
      refine ⟨hgoes.trans ihgoes, ?_, fun hq => ihwrites (hwrites hq)⟩
      calc (replay q (made :: rest)).filters
        _ = (made.2.after made.1 q).filters ++ addedBy (made.2.after made.1 q) rest := ihfilters
        _ = q.filters ++ addedBy q (made :: rest) := by rw [hfilters, List.append_assoc, addedBy]

/-! ### Scripts -/

namespace Building

/-- A step, with the collection and the index that a query can be started over. -/
structure Turn where
  collection : Value
  index : Value
  step : BuildStep

variable {b : Building} {m : Turn} {i : Nat} {q : Query}

def answer (b : Building) (m : Turn) : Except Failure Report := (perform m.collection m.index b m.step).1

def next (b : Building) (m : Turn) : Building := (perform m.collection m.index b m.step).2

def after (b : Building) (turns : List Turn) : Building := turns.foldl next b

/-- What steps answer, one after the other. -/
def answers : Building → List Turn → List (Except Failure Report)
  | _, [] => []
  | b, m :: rest => b.answer m :: (b.next m).answers rest

/-- The query, the stage and the call of a step that calls on a stage. -/
def calledOn? (b : Building) (s : BuildStep) : Option (Nat × Stage × Call) :=
  if s.on = "" ∨ s.call.name = execution then none
  else (b.find? s.on).map fun (stage, place, _) => (place, stage, s.call)

/-- The call of a step on a stage of one query, if it calls on one. -/
def callOn (i : Nat) (b : Building) (s : BuildStep) : List (Stage × Call) :=
  ((b.calledOn? s).filter (·.1 == i)).toList.map Prod.snd

/-- The calls on stages of one query. -/
def callsOn (i : Nat) : Building → List Turn → List (Stage × Call)
  | _, [] => []
  | b, m :: rest => b.callOn i m.step ++ callsOn i (b.next m) rest

/-- The results of a script are what its steps answer. -/
theorem run_eq_answers (collection index : Value) (steps : List BuildStep) :
    run collection index steps = empty.answers (steps.map (Turn.mk collection index)) := by
  let step (acc : List (Except Failure Report) × Building) (s : BuildStep) :=
    (acc.1 ++ [(perform collection index acc.2 s).1], (perform collection index acc.2 s).2)
  have hfold (results : List (Except Failure Report)) (b : Building) :
      (steps.foldl step (results, b)).1 = results ++ b.answers (steps.map (Turn.mk collection index)) := by
    induction steps generalizing results b with
    | nil => exact (List.append_nil _).symm
    | cons s rest ih =>
        rw [List.foldl_cons, ih, List.append_assoc]
        rfl
  exact hfold [] empty

theorem exists_query_of_find? {name : String} {stage : Stage} {place : Nat}
    (h : b.find? name = some (stage, place, q)) : b.queries[place]? = some q := by
  obtain ⟨held, _, h⟩ := Option.bind_eq_some_iff.1 h
  obtain ⟨_, hq, h⟩ := Option.bind_eq_some_iff.1 h
  cases h
  exact hq

/-- A step is refused without a call on a query, or starts a query, or calls on a stage of one. -/
theorem perform_cases (collection index : Value) (b : Building) (s : BuildStep) :
    (b.calledOn? s = none ∧ ∃ f, perform collection index b s = (.error f, b)) ∨
    (b.calledOn? s = none ∧ ∃ q, s.call.start collection index = .ok q ∧
      perform collection index b s = (.ok (reportOf .query q), b.begin s.name q)) ∨
    ∃ place stage q, b.calledOn? s = some (place, stage, s.call) ∧ b.queries[place]? = some q ∧
      perform collection index b s =
        match s.call.apply stage q with
        | .error f => (.error f, b)
        | .ok (stage, q) => (.ok (reportOf stage q), (b.set place q).bind s.name stage place) := by
  unfold perform calledOn?
  by_cases hon : s.on = ""
  · rw [if_pos hon, if_pos (.inl hon)]
    cases hstart : s.call.start collection index with
    | error f => exact .inl ⟨rfl, f, rfl⟩
    | ok q => exact .inr (.inl ⟨rfl, q, rfl, rfl⟩)
  · rw [if_neg hon]
    cases hfind : b.find? s.on with
    | none => exact .inl ⟨ite_self none, _, rfl⟩
    | some held =>
        dsimp only
        by_cases hname : s.call.name = execution
        · rw [if_pos hname, if_pos (.inr hname)]
          exact .inl ⟨rfl, _, rfl⟩
        · rw [if_neg hname, if_neg (not_or_intro hon hname)]
          exact .inr (.inr ⟨held.2.1, held.1, held.2.2, rfl, exists_query_of_find? hfind, rfl⟩)

/-- A step that fails changes nothing. -/
theorem next_of_error {f : Failure} (h : b.answer m = .error f) : b.next m = b := by
  unfold answer at h
  unfold next
  rcases perform_cases m.collection m.index b m.step with
    ⟨_, _, hperform⟩ | ⟨_, _, _, hperform⟩ | ⟨_, stage, q, _, _, hperform⟩
  · rw [hperform]
  · rw [hperform] at h
    cases h
  · rw [hperform] at h ⊢
    cases happly : m.step.call.apply stage q with
    | error f => rfl
    | ok made =>
        rw [happly] at h
        cases h

/-- What a call on a stage answers is settled by the stage and its query. -/
theorem answer_of_calledOn? {stage : Stage} {c : Call} (hcall : b.calledOn? m.step = some (i, stage, c))
    (hq : b.queries[i]? = some q) :
    b.answer m = (c.apply stage q).map fun made => reportOf made.1 made.2 := by
  unfold answer
  rcases perform_cases m.collection m.index b m.step with
    ⟨hnone, _⟩ | ⟨hnone, _⟩ | ⟨place, stage', q', hsome, hq', hperform⟩
  · cases hnone.symm.trans hcall
  · cases hnone.symm.trans hcall
  · cases hsome.symm.trans hcall
    cases hq'.symm.trans hq
    rw [hperform]
    cases m.step.call.apply stage q <;> rfl

/-- A step does to a query what its call on a stage of that query does. -/
theorem queries_next (m : Turn) (hq : b.queries[i]? = some q) :
    (b.next m).queries[i]? = some (replay q (b.callOn i m.step)) := by
  unfold next callOn
  rcases perform_cases m.collection m.index b m.step with
    ⟨hnone, _, hperform⟩ | ⟨hnone, made, _, hperform⟩ | ⟨place, stage, q', hsome, hq', hperform⟩
  · rw [hperform, hnone]
    exact hq
  · rw [hperform, hnone]
    exact List.getElem?_append_left (List.getElem?_eq_some_iff.1 hq).1 |>.trans hq
  · rw [hperform, hsome, Option.filter_some]
    by_cases hplace : place = i
    · subst hplace
      cases hq'.symm.trans hq
      have hcalls : replay q [(stage, m.step.call)] = m.step.call.after stage q := rfl
      simp only [beq_self_eq_true, if_true, Option.toList_some, List.map_cons, List.map_nil, hcalls, Call.after]
      cases m.step.call.apply stage q with
      | error f => exact hq
      | ok made => exact List.getElem?_set_self (List.getElem?_eq_some_iff.1 hq).1
    · simp only [hplace, beq_iff_eq, if_false, Option.toList_none, List.map_nil]
      cases m.step.call.apply stage q' with
      | error f => exact hq
      | ok made => exact (List.getElem?_set_ne hplace).trans hq

/-- Steps do to a query what their calls on its stages do. -/
theorem queries_after (turns : List Turn) (hq : b.queries[i]? = some q) :
    (b.after turns).queries[i]? = some (replay q (callsOn i b turns)) := by
  induction turns generalizing b q with
  | nil => exact hq
  | cons m rest ih =>
      rw [after, List.foldl_cons, ← after, ih (queries_next m hq), callsOn, replay, replay, replay,
        List.foldl_append]

/-- A query that is there after a step was there before, or was started by it. -/
theorem queries_of_next (hq : (b.next m).queries[i]? = some q) :
    (∃ before, b.queries[i]? = some before) ∨ m.step.call.start m.collection m.index = .ok q := by
  have hbefore {queries : List Query} (hqueries : queries[i]? = some q)
      (hlength : queries.length = b.queries.length) : ∃ before, b.queries[i]? = some before := by
    have hi := (List.getElem?_eq_some_iff.1 hqueries).1
    rw [hlength] at hi
    exact ⟨b.queries[i], List.getElem?_eq_getElem hi⟩
  unfold next at hq
  rcases perform_cases m.collection m.index b m.step with
    ⟨_, _, hperform⟩ | ⟨_, made, hstart, hperform⟩ | ⟨place, stage, held, _, _, hperform⟩
  · rw [hperform] at hq
    exact .inl ⟨q, hq⟩
  · rw [hperform] at hq
    have hqueries : (b.queries ++ [made])[i]? = some q := hq
    rw [List.getElem?_append] at hqueries
    split at hqueries
    · exact .inl ⟨q, hqueries⟩
    · cases List.mem_singleton.1 (List.mem_of_getElem? hqueries)
      exact .inr hstart
  · rw [hperform] at hq
    cases happly : m.step.call.apply stage held with
    | error f =>
        rw [happly] at hq
        exact .inl ⟨q, hq⟩
    | ok made =>
        rw [happly] at hq
        exact .inl (hbefore hq List.length_set)

/-- A step started a query in the initial state, and the calls on its stages since then make another of it. -/
def HasStart (i : Nat) (turns : List Turn) (q : Query) : Prop :=
  ∃ before m rest start, turns = before ++ m :: rest ∧
    m.step.call.start m.collection m.index = .ok start ∧ start.state = .initial ∧
      q = replay start (callsOn i (empty.after (before ++ [m])) rest)

theorem after_append (b : Building) (turns more : List Turn) :
    b.after (turns ++ more) = (b.after turns).after more := List.foldl_append

theorem callsOn_append (i : Nat) (b : Building) (turns more : List Turn) :
    callsOn i b (turns ++ more) = callsOn i b turns ++ callsOn i (b.after turns) more := by
  induction turns generalizing b with
  | nil => rfl
  | cons m rest ih => rw [List.cons_append, callsOn, ih, callsOn, List.append_assoc, after, after, List.foldl_cons]

theorem hasStart (turns : List Turn) (hq : (empty.after turns).queries[i]? = some q) : HasStart i turns q := by
  induction turns using List.reverseRecOn generalizing q with
  | nil => cases hq
  | append_singleton turns m ih =>
      have hafter : empty.after (turns ++ [m]) = (empty.after turns).next m := after_append _ _ _
      rw [hafter] at hq
      rcases queries_of_next hq with ⟨before, hbefore⟩ | hstart
      · obtain ⟨earlier, n, rest, start, rfl, hstart, hinitial, rfl⟩ := ih hbefore
        cases (queries_next m hbefore).symm.trans hq
        -- the query was there, so the last step adds at most one call to those since its start
        refine ⟨earlier, n, rest ++ [m], start, List.append_assoc _ _ _, hstart, hinitial, ?_⟩
        rw [callsOn_append, ← after_append, List.append_assoc, callsOn, callsOn, List.append_nil, replay, replay,
          replay, List.foldl_append]
        rfl
      · exact ⟨turns, m, [], q, rfl, hstart, (Call.start_spec hstart).1, rfl⟩

theorem writesByRule_of_hasStart {turns : List Turn} (h : HasStart i turns q) : q.WritesByRule := by
  obtain ⟨_, _, _, start, _, hstart, _, rfl⟩ := h
  exact (replay_spec start _).2.2 (Call.start_spec hstart).2

/-- From any state of a script to any later one, a query goes one way, and its own calls take it there; nor does
it see the other queries in what those calls answer. -/
theorem queries_go_one_way (earlier later : List Turn) (hq : (empty.after earlier).queries[i]? = some q) :
    HasStart i earlier q ∧
    (∃ q', (empty.after (earlier ++ later)).queries[i]? = some q' ∧
      q' = replay q (callsOn i (empty.after earlier) later) ∧
      q.GoesTo q' ∧ (q'.rule.isSome = true ↔ q'.state = .write) ∧
      q'.filters = q.filters ++ addedBy q (callsOn i (empty.after earlier) later)) ∧
    (∀ m stage c, (empty.after earlier).calledOn? m.step = some (i, stage, c) →
      (empty.after earlier).answer m = (c.apply stage q).map fun made => reportOf made.1 made.2) ∧
    ∀ m f, (empty.after earlier).answer m = .error f → (empty.after earlier).next m = empty.after earlier := by
  have hstart := hasStart earlier hq
  have hwrites := writesByRule_of_hasStart hstart
  obtain ⟨hgoes, hfilters, hkeeps⟩ := replay_spec q (callsOn i (empty.after earlier) later)
  refine ⟨hstart, ⟨_, ?_, rfl, hgoes, hkeeps hwrites, hfilters⟩,
    fun m stage c hcall => answer_of_calledOn? hcall hq, fun m f => next_of_error⟩
  rw [after_append]
  exact queries_after later hq

/-- Queries of people and of cities; of the people only the keys are read. -/
def drafted : List Turn :=
  [⟨.text "people", .null, ⟨"", ⟨"all", .ok []⟩, "people"⟩⟩,
    ⟨.text "cities", .null, ⟨"", ⟨"all", .ok []⟩, "cities"⟩⟩,
    ⟨.null, .null, ⟨"people", ⟨"keys", .ok []⟩, "names"⟩⟩]

/-- The limit comes too late for the people, and so does the order for the cities, which are modified. -/
def finished : List Turn :=
  [⟨.null, .null, ⟨"people", ⟨"limit", .ok [.int 1]⟩, "few"⟩⟩,
    ⟨.null, .null, ⟨"cities", ⟨"modify", .ok [.dict []]⟩, "changed"⟩⟩,
    ⟨.null, .null, ⟨"names", ⟨"filter", .ok [.text "age", .int 7]⟩, "names"⟩⟩,
    ⟨.null, .null, ⟨"cities", ⟨"desc", .ok []⟩, "cities"⟩⟩]

def namesOfPeople : Query := { Query.ofRange (.text "people") .null (.descriptor .unbounded) with state := .keys }

theorem queries_go_one_way_names : (empty.after drafted).queries[0]? = some namesOfPeople ∧
    ∃ q', (empty.after (drafted ++ finished)).queries[0]? = some q' ∧ namesOfPeople.GoesTo q' ∧
      q'.filters = [.field "age" (.int 7)] := by
  have hq : (empty.after drafted).queries[0]? = some namesOfPeople := rfl
  obtain ⟨_, ⟨q', hq', _, hgoes, _, hfilters⟩, _⟩ := queries_go_one_way drafted finished hq
  exact ⟨hq, q', hq', hgoes, hfilters.trans rfl⟩

end Building
end Script
end RecordStore
