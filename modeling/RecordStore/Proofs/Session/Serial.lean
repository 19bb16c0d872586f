import RecordStore.Proofs.Session.Interleaving

/-!
Errands on one connection are done one after another. At any moment those that have begun are over, but for
one at most, and they ended as they would have if each had been called after the other. Closing is one of
them, and is the last: what has not begun when closing is asked for is refused.
-/

namespace RecordStore

open Effect

section Counting

variable {α : Type*} {p : α → Bool} {l : List α} {i j : Nat} {a b : α}

theorem countP_set_add (h : l[i]? = some a) : (l.set i b).countP p + (p a).toNat = l.countP p + (p b).toNat := by
  obtain ⟨hlt, rfl⟩ := List.getElem?_eq_some_iff.1 h
  have hpos : p l[i] = true → 0 < l.countP p := fun hp => List.countP_pos_iff.2 ⟨_, List.getElem_mem hlt, hp⟩
  rw [List.countP_set hlt]
  cases ha : p l[i] with
  | false => cases p b <;> rfl
  | true =>
      have hpos := hpos ha
      cases p b <;> simp <;> omega

theorem eq_of_countP_le_one (hl : l.countP p ≤ 1) (hi : l[i]? = some a) (hj : l[j]? = some b) (ha : p a = true)
    (hb : p b = true) : i = j := by
  induction l generalizing i j with
  | nil => cases hi
  | cons c l ih =>
      rw [List.countP_cons] at hl
      have hnone {k : Nat} {d : α} (hk : l[k]? = some d) (hd : p d = true) (hc : p c = true) : False := by
        have hpos := List.countP_pos_iff.2 ⟨d, List.mem_of_getElem? hk, hd⟩
        rw [if_pos hc] at hl
        omega
      cases i with
      | zero =>
          cases hi
          cases j with
          | zero => rfl
          | succ j => exact (hnone hj hb ha).elim
      | succ i =>
          cases j with
          | zero =>
              cases hj
              exact (hnone hi ha hb).elim
          | succ j => exact congrArg Nat.succ (ih (Nat.le_trans (Nat.le_add_right _ _) hl) hi hj)

end Counting

open Session

namespace Errand

def isWorking (t : Errand) : Bool :=
  match t.phase with
  | .working _ => true
  | _ => false

/-- An errand that works or has succeeded, as only one can that has begun. -/
def hasBegun (t : Errand) : Bool :=
  match t.phase with
  | .working _ => true
  | .ended (.ok _) => true
  | _ => false

/-- An errand that has closed its connection. -/
def hasClosed (t : Errand) : Bool :=
  t.job.call.closes && match t.phase with
    | .ended (.ok _) => true
    | _ => false

/-- An errand that closes its connection, or has. -/
def isCloser (t : Errand) : Bool :=
  t.job.call.closes && match t.phase with
    | .ended (.error _) => false
    | _ => true

variable {t : Errand}

theorem closes_of_isCloser (h : t.isCloser = true) : t.job.call.closes = true := (Bool.and_eq_true_iff.1 h).1

theorem isCloser_of_isPending (h : t.isPending = true) : t.isCloser = t.job.call.closes := by
  unfold isPending at h
  unfold isCloser
  cases hphase : t.phase with
  | ended v => rw [hphase] at h; cases h
  | waiting => exact Bool.and_true _
  | working rest => exact Bool.and_true _

theorem isCloser_of_hasClosed (h : t.hasClosed = true) : t.isCloser = true := by
  unfold hasClosed at h
  unfold isCloser
  obtain ⟨hcloses, hended⟩ := Bool.and_eq_true_iff.1 h
  cases hphase : t.phase with
  | ended v =>
      cases v with
      | ok v => exact Bool.and_eq_true_iff.2 ⟨hcloses, rfl⟩
      | error f => rw [hphase] at hended; cases hended
  | waiting => exact Bool.and_eq_true_iff.2 ⟨hcloses, rfl⟩
  | working rest => exact Bool.and_eq_true_iff.2 ⟨hcloses, rfl⟩

theorem hasClosed_of_isPending (h : t.isPending = true) : t.hasClosed = false := by
  unfold isPending at h
  unfold hasClosed
  cases hphase : t.phase with
  | ended v => rw [hphase] at h; cases h
  | waiting => exact Bool.and_false _
  | working rest => exact Bool.and_false _

/-- An errand that is to use a connection: it waits for it only if its arguments could be resolved. -/
structure IsFor (id : Nat) (t : Errand) : Prop where
  shares : t.session.connection = id
  resolved : t.phase = .waiting → ∃ parts, t.job.work = .ok parts

end Errand

namespace Scene

def IsWorking (x : Scene) (i : Nat) : Prop := ∃ t, x.errands[i]? = some t ∧ t.isWorking = true

def HasClosed (x : Scene) (i : Nat) : Prop := ∃ t, x.errands[i]? = some t ∧ t.hasClosed = true

/-- The errands of a scene that are over in the hub that is reached by calling one after another, with the same
answers. -/
inductive Serially (x : Scene) (h : Hub) : List Nat → Hub → Prop
  | nil : Serially x h [] h
  | snoc {earlier : List Nat} {k k' : Hub} {i : Nat} {t : Errand} {v : Except Failure Value}
    (hearlier : Serially x h earlier k) (ht : x.errands[i]? = some t) (hended : t.phase = .ended v)
    (hrun : (t.job.call.on t.session).run k = ending v k') : Serially x h (earlier ++ [i]) k'

/-- How a scene stands to the hub that the errands before have led to, one after another: either nobody works,
and the store is the one of that hub, or one errand works on it, and what it has still to do ends as its work
on that hub would. -/
inductive Stands (id : Nat) (x : Scene) (earlier : List Nat) (k : Hub) : Prop
  | free (hfree : x.isLocked = false) (hidle : ∀ j, ¬x.IsWorking j) (hstarted : x.started = earlier)
    (hengine : x.hub.engine = k.engine)
  | busy {i : Nat} {t : Errand} {rest : Routine Engine Account} {work : Nat → Action Account}
    (hlocked : x.isLocked = true) (ht : x.errands[i]? = some t) (hphase : t.phase = .working rest)
    (honly : ∀ j, x.IsWorking j → j = i) (hstarted : x.started = earlier ++ [i]) (hopen : k.isClosed id = false)
    (hwork : t.job.call.work? = some (.ok work))
    (hrest : rest.whole x.hub.engine = work (k.connection id).db k.engine)

/-- What errands that ran one after another on a connection leave behind. -/
structure Leaves (id : Nat) (h₀ : Hub) (x : Scene) (k : Hub) : Prop where
  db : (k.connection id).db = (h₀.connection id).db
  atRest : k.engine.IsAtRest
  closed : k.isClosed id = true ↔ ∃ i, x.HasClosed i
  shut : (k.engine.connection (h₀.connection id).db).isClosed = k.isClosed id

/-- There is an order in which the errands ran: the one in which they began. -/
def HasOrder (id : Nat) (h₀ : Hub) (x : Scene) : Prop :=
  ∃ earlier k, x.Serially h₀ earlier k ∧ x.Leaves id h₀ k ∧ x.Stands id earlier k

/-- What holds of a scene at every moment. -/
structure IsOrderly (id : Nat) (h₀ : Hub) (x : Scene) : Prop where
  placed : ∀ t ∈ x.errands, t.IsFor id
  made : id < x.hub.connections.length
  db : (x.hub.connection id).db = (h₀.connection id).db
  counted : (x.hub.connection id).jobs = x.errands.countP Errand.isPending
  closers : x.errands.countP Errand.isCloser ≤ (x.hub.isClosed id).toNat
  order : x.HasOrder id h₀
  once : x.started.Nodup
  recorded : ∀ i t, x.errands[i]? = some t → t.hasBegun = true → i ∈ x.started

variable {id : Nat} {h₀ : Hub} {x y : Scene}

/-! ### The connection -/

/-- Nothing is closed but by being asked for closing, and no connection is opened again. -/
theorem Goes.connection (hgoes : Goes id x y) (hplaced : ∀ t ∈ x.errands, t.IsFor id)
    (hmade : id < x.hub.connections.length) : id < y.hub.connections.length ∧
      (y.hub.connection id).db = (x.hub.connection id).db ∧
      (x.hub.isClosed id = true → y.hub.isClosed id = true) := by
  have hreleased := Hub.connection_released hmade
  cases hgoes with
  | refused => exact ⟨hmade, rfl, fun h => h⟩
  | begun => exact ⟨hmade, rfl, fun h => h⟩
  | worked => exact ⟨hmade, rfl, fun h => h⟩
  | @queued s j parts hs hopen =>
      subst hs
      refine ⟨?_, ?_, fun hclosed => absurd (hopen.symm.trans hclosed) Bool.false_ne_true⟩
      · exact Nat.lt_of_lt_of_eq hmade (j.call.length_asked s x.hub).symm
      · rw [enqueue, j.call.connection_asked hopen]
  | @turnedAway i t ht =>
      have hs := (hplaced t (List.mem_of_getElem? ht)).shares
      subst hs
      refine ⟨Nat.lt_of_lt_of_eq hmade List.length_set.symm, ?_, fun hclosed => ?_⟩
      · rw [turnAway, finish, hreleased]
      · rw [turnAway, finish, Hub.isClosed, hreleased]
        exact hclosed
  | settled _ _ hsame =>
      rw [finish, Hub.isClosed, Hub.isClosed, hsame.connection, hreleased, hsame.connections]
      exact ⟨Nat.lt_of_lt_of_eq hmade List.length_set.symm, rfl, fun h => h⟩

theorem Goes.placed (hgoes : Goes id x y) (hplaced : ∀ t ∈ x.errands, t.IsFor id) : ∀ t ∈ y.errands, t.IsFor id := by
  have hconcat {u : Errand} (hu : u.IsFor id) : ∀ t ∈ x.errands ++ [u], t.IsFor id := fun t ht =>
    (List.mem_append.1 ht).elim (hplaced t) fun ht => List.mem_singleton.1 ht ▸ hu
  have hset {i : Nat} {t : Errand} {p : Phase} (ht : x.errands[i]? = some t) (hp : p ≠ .waiting) :
      ∀ u ∈ x.errands.set i { t with phase := p }, u.IsFor id := fun u hu =>
    (List.mem_or_eq_of_mem_set hu).elim (hplaced u) fun heq =>
      heq ▸ ⟨(hplaced t (List.mem_of_getElem? ht)).shares, fun hwaiting => absurd hwaiting hp⟩
  cases hgoes with
  | refused hs => exact hconcat ⟨hs, nofun⟩
  | queued hs _ hwork => exact hconcat ⟨hs, fun _ => ⟨_, hwork⟩⟩
  | begun ht => exact hset ht nofun
  | turnedAway ht => exact hset ht nofun
  | worked ht => exact hset ht nofun
  | settled ht => exact hset ht nofun

/-- The connection counts the errands that have asked for it and are not over. -/
theorem Goes.counted (hgoes : Goes id x y) (hplaced : ∀ t ∈ x.errands, t.IsFor id)
    (hmade : id < x.hub.connections.length)
    (hcounted : (x.hub.connection id).jobs = x.errands.countP Errand.isPending) :
    (y.hub.connection id).jobs = y.errands.countP Errand.isPending := by
  have hreleased := Hub.connection_released hmade
  -- an errand that goes on is counted as before, and one that ends is not counted any more
  have hkept {i : Nat} {t u : Errand} (ht : x.errands[i]? = some t) (hpending : t.isPending = true)
      (hu : u.isPending = true) : (x.hub.connection id).jobs = (x.errands.set i u).countP Errand.isPending := by
    have hset := countP_set_add (p := Errand.isPending) (b := u) ht
    rw [hpending, hu] at hset
    exact hcounted.trans (Nat.add_right_cancel hset).symm
  have hended {i : Nat} {t u : Errand} (ht : x.errands[i]? = some t) (hpending : t.isPending = true)
      (hu : u.isPending = false) :
      (x.hub.connection id).jobs - 1 = (x.errands.set i u).countP Errand.isPending := by
    have hset := countP_set_add (p := Errand.isPending) (b := u) ht
    rw [hpending, hu] at hset
    rw [hcounted]
    exact Nat.sub_eq_of_eq_add hset.symm
  cases hgoes with
  | refused =>
      rw [hcounted, List.countP_append]
      rfl
  | @queued s j parts hs hopen =>
      subst hs
      rw [enqueue, List.countP_append, ← hcounted, j.call.connection_asked hopen]
      rfl
  | begun ht hphase => exact hkept ht (by rw [Errand.isPending, hphase]) rfl
  | worked ht hphase => exact hkept ht (by rw [Errand.isPending, hphase]) rfl
  | @turnedAway i t ht hphase =>
      have hs := (hplaced t (List.mem_of_getElem? ht)).shares
      rw [turnAway, finish, hs, hreleased]
      exact hended ht (by rw [Errand.isPending, hphase]) rfl
  | settled ht hphase hsame =>
      rw [finish, hsame.connection, hreleased]
      exact hended ht (by rw [Errand.isPending, hphase]) rfl

/-- At most one errand closes the connection or has closed it, and none if it is open. -/
theorem Goes.closers (hgoes : Goes id x y) (hplaced : ∀ t ∈ x.errands, t.IsFor id)
    (hmade : id < x.hub.connections.length)
    (hclosers : x.errands.countP Errand.isCloser ≤ (x.hub.isClosed id).toNat) :
    y.errands.countP Errand.isCloser ≤ (y.hub.isClosed id).toNat := by
  have hreleased := Hub.connection_released hmade
  have hset {i : Nat} {t : Errand} {p : Phase} (ht : x.errands[i]? = some t)
      (hle : Errand.isCloser { t with phase := p } = true → t.isCloser = true) :
      (x.errands.set i { t with phase := p }).countP Errand.isCloser ≤ (x.hub.isClosed id).toNat := by
    have hset := countP_set_add (p := Errand.isCloser) (b := { t with phase := p }) ht
    have hle := Bool.toNat_le_toNat hle
    omega
  have hended {t : Errand} {p : Phase} (hpending : t.isPending = true)
      (hu : Errand.isCloser { t with phase := p } = true) : t.isCloser = true := by
    rw [Errand.isCloser_of_isPending hpending]
    exact (Errand.closes_of_isCloser hu :)
  cases hgoes with
  | refused =>
      rw [List.countP_append, List.countP_singleton, Errand.isCloser, Bool.and_false]
      exact hclosers
  | @queued s j parts hs hopen =>
      subst hs
      rw [hopen] at hclosers
      rw [enqueue, List.countP_append, Nat.le_zero.1 hclosers, Hub.isClosed, j.call.connection_asked hopen,
        List.countP_singleton, Errand.isCloser_of_isPending rfl, Nat.zero_add]
      cases j.call.closes with
      | false => exact Nat.le_refl _
      | true => exact Nat.le_refl _
  | begun ht hphase => exact hset ht (hended (by rw [Errand.isPending, hphase]))
  | worked ht hphase => exact hset ht (hended (by rw [Errand.isPending, hphase]))
  | @turnedAway i t ht hphase =>
      have hs := (hplaced t (List.mem_of_getElem? ht)).shares
      rw [turnAway, finish, hs, Hub.isClosed, hreleased]
      exact hset ht (hended (by rw [Errand.isPending, hphase]))
  | settled ht hphase hsame =>
      rw [finish, Hub.isClosed, hsame.connection, hreleased]
      exact hset ht (hended (by rw [Errand.isPending, hphase]))

/-! ### The order -/

theorem getElem?_concat_of_eq_some {l : List Errand} {i : Nat} {t u : Errand} (h : l[i]? = some t) :
    (l ++ [u])[i]? = some t :=
  (List.getElem?_append_left (List.getElem?_eq_some_iff.1 h).1).trans h

theorem eq_some_of_getElem?_concat {l : List Errand} {i : Nat} {t u : Errand} (h : (l ++ [u])[i]? = some t) :
    l[i]? = some t ∨ i = l.length ∧ t = u := by
  rw [List.getElem?_append] at h
  split at h
  · exact .inl h
  · next hle =>
    obtain ⟨hlt, heq⟩ := List.getElem?_eq_some_iff.1 h
    rw [List.length_singleton] at hlt
    exact .inr ⟨by omega, heq.symm.trans (List.getElem_singleton _)⟩

theorem eq_some_of_getElem?_set {l : List Errand} {i j : Nat} {t u : Errand} (h : (l.set i u)[j]? = some t) :
    j = i ∧ t = u ∨ j ≠ i ∧ l[j]? = some t := by
  by_cases hij : i = j
  · subst hij
    obtain ⟨hlt, heq⟩ := List.getElem?_eq_some_iff.1 h
    exact .inl ⟨rfl, heq.symm.trans (List.getElem_set_self _)⟩
  · exact .inr ⟨fun h => hij h.symm, (List.getElem?_set_ne hij).symm.trans h⟩

theorem Serially.mono {earlier : List Nat} {k : Hub} (hserially : x.Serially h₀ earlier k)
    (hkept : ∀ (i : Nat) (t : Errand) v, x.errands[i]? = some t → t.phase = .ended v → y.errands[i]? = some t) :
    y.Serially h₀ earlier k := by
  induction hserially with
  | nil => exact .nil
  | snoc _ ht hended hrun ih => exact .snoc ih (hkept _ _ _ ht hended) hended hrun

/-- A change that no errand takes part in that works or is over. -/
structure IsAside (x y : Scene) : Prop where
  engine : y.hub.engine = x.hub.engine
  isLocked : y.isLocked = x.isLocked
  started : y.started = x.started
  kept : ∀ (i : Nat) (t : Errand), x.errands[i]? = some t → t.phase ≠ .waiting → y.errands[i]? = some t
  new : ∀ (i : Nat) (t : Errand), y.errands[i]? = some t →
    x.errands[i]? = some t ∨ t.phase = .waiting ∨ ∃ f, t.phase = .ended (.error f)

theorem IsAside.isWorking (haside : IsAside x y) {i : Nat} (h : y.IsWorking i) : x.IsWorking i := by
  obtain ⟨t, ht, hworking⟩ := h
  rcases haside.new i t ht with hold | hphase | ⟨f, hphase⟩
  · exact ⟨t, hold, hworking⟩
  · rw [Errand.isWorking, hphase] at hworking
    cases hworking
  · rw [Errand.isWorking, hphase] at hworking
    cases hworking

theorem IsAside.hasClosed_iff (haside : IsAside x y) {i : Nat} : y.HasClosed i ↔ x.HasClosed i := by
  refine ⟨fun ⟨t, ht, hclosed⟩ => ?_, fun ⟨t, ht, hclosed⟩ => ⟨t, haside.kept i t ht fun hphase => ?_, hclosed⟩⟩
  · rcases haside.new i t ht with hold | hphase | ⟨f, hphase⟩
    · exact ⟨t, hold, hclosed⟩
    · rw [Errand.hasClosed, hphase, Bool.and_false] at hclosed
      cases hclosed
    · rw [Errand.hasClosed, hphase, Bool.and_false] at hclosed
      cases hclosed
  · rw [Errand.hasClosed, hphase, Bool.and_false] at hclosed
    cases hclosed

/-- Whether anything was closed is all that matters of a scene to what was left behind. -/
theorem Leaves.congr {k : Hub} (h : x.Leaves id h₀ k) (hclosed : ∀ i, y.HasClosed i ↔ x.HasClosed i) :
    y.Leaves id h₀ k :=
  ⟨h.db, h.atRest, h.closed.trans (exists_congr fun i => (hclosed i).symm), h.shut⟩

theorem IsAside.stands (haside : IsAside x y) {earlier : List Nat} {k : Hub} (h : x.Stands id earlier k) :
    y.Stands id earlier k := by
  cases h with
  | free hfree hidle hstarted hengine =>
      exact .free (haside.isLocked.trans hfree) (fun j hj => hidle j (haside.isWorking hj))
        (haside.started.trans hstarted) (haside.engine.trans hengine)
  | busy hlocked ht hphase honly hstarted hopen hwork hrest =>
      exact .busy (haside.isLocked.trans hlocked) (haside.kept _ _ ht (by rw [hphase]; exact nofun)) hphase
        (fun j hj => honly j (haside.isWorking hj)) (haside.started.trans hstarted) hopen hwork
        (haside.engine ▸ hrest)

theorem IsAside.hasOrder (haside : IsAside x y) (h : x.HasOrder id h₀) : y.HasOrder id h₀ := by
  obtain ⟨earlier, k, hserially, hleaves, hstands⟩ := h
  refine ⟨earlier, k, hserially.mono fun i t v ht hended => haside.kept i t ht ?_,
    hleaves.congr fun i => haside.hasClosed_iff, haside.stands hstands⟩
  rw [hended]
  exact nofun

/-- One more errand that waits or is refused. -/
theorem isAside_concat {h : Hub} {u : Errand} (hengine : h.engine = x.hub.engine)
    (hu : u.phase = .waiting ∨ ∃ f, u.phase = .ended (.error f)) :
    IsAside x { x with hub := h, errands := x.errands ++ [u] } where
  engine := hengine
  isLocked := rfl
  started := rfl
  kept _ _ ht _ := getElem?_concat_of_eq_some ht
  new _ _ ht := by
    rcases eq_some_of_getElem?_concat ht with hold | ⟨_, rfl⟩
    · exact .inl hold
    · exact .inr hu

theorem isAside_turnAway {i : Nat} {t : Errand} (ht : x.errands[i]? = some t) (hphase : t.phase = .waiting)
    (hfree : x.isLocked = false) : IsAside x (x.turnAway i t) where
  engine := rfl
  isLocked := hfree.symm
  started := rfl
  kept j u hu hne := by
    refine (List.getElem?_set_ne ?_).trans hu
    rintro rfl
    cases ht.symm.trans hu
    exact hne hphase
  new _ _ hu := by
    rcases eq_some_of_getElem?_set hu with ⟨_, rfl⟩ | ⟨_, hold⟩
    · exact .inr (.inr ⟨_, rfl⟩)
    · exact .inl hold

section Turns

variable {i : Nat} {t : Errand} {p : Phase}

/-- An errand that is over stays as it is when another goes on. -/
theorem getElem?_set_of_ended (ht : x.errands[i]? = some t) (hpending : t.isPending = true) {j : Nat} {u : Errand}
    {v : Except Failure Value} (hu : x.errands[j]? = some u) (hended : u.phase = .ended v) :
    (x.errands.set i { t with phase := p })[j]? = some u := by
  refine (List.getElem?_set_ne ?_).trans hu
  rintro rfl
  cases ht.symm.trans hu
  rw [Errand.isPending, hended] at hpending
  cases hpending

/-- Nothing is closed by an errand that goes on, unless it ends. -/
theorem hasClosed_iff_of_set (hy : y.errands = x.errands.set i { t with phase := p }) (ht : x.errands[i]? = some t)
    (hpending : t.isPending = true) (hp : Errand.hasClosed { t with phase := p } = false) (j : Nat) :
    y.HasClosed j ↔ x.HasClosed j := by
  unfold HasClosed
  rw [hy]
  refine ⟨fun ⟨u, hu, hhas⟩ => ?_, fun ⟨u, hu, hhas⟩ => ⟨u, (List.getElem?_set_ne ?_).trans hu, hhas⟩⟩
  · rcases eq_some_of_getElem?_set hu with ⟨_, rfl⟩ | ⟨_, hold⟩
    · cases hp.symm.trans hhas
    · exact ⟨u, hold, hhas⟩
  · rintro rfl
    cases ht.symm.trans hu
    cases (Errand.hasClosed_of_isPending hpending).symm.trans hhas

theorem isWorking_of_phase {rest : Routine Engine Account} (ht : x.errands[i]? = some t)
    (hphase : t.phase = .working rest) : x.IsWorking i :=
  ⟨t, ht, by rw [Errand.isWorking, hphase]⟩

/-- Nobody has closed the connection when it is the turn of an errand that passes. -/
theorem IsOrderly.isClosed_eq_false (hx : x.IsOrderly id h₀) {k : Hub} (hleaves : x.Leaves id h₀ k)
    (ht : x.errands[i]? = some t) (hphase : t.phase = .waiting)
    (hpasses : t.job.call.closes = false → x.hub.isClosed id = false) : k.isClosed id = false := by
  refine Bool.eq_false_iff.2 fun hclosed => ?_
  obtain ⟨j, u, hu, hhas⟩ := hleaves.closed.1 hclosed
  have hcloser := Errand.isCloser_of_hasClosed hhas
  cases hcloses : t.job.call.closes with
  | false =>
      have hpos := List.countP_pos_iff.2 ⟨u, List.mem_of_getElem? hu, hcloser⟩
      have hnone := hx.closers
      rw [hpasses hcloses] at hnone
      exact absurd hpos (Nat.not_lt.2 hnone)
  | true =>
      have hpending : t.isPending = true := by rw [Errand.isPending, hphase]
      have hij := eq_of_countP_le_one (hx.closers.trans (Bool.toNat_le _)) ht hu
        ((Errand.isCloser_of_isPending hpending).trans hcloses) hcloser
      subst hij
      cases ht.symm.trans hu
      rw [Errand.hasClosed, hphase, Bool.and_false] at hhas
      cases hhas

/-- An errand that begins is the next in the order. -/
theorem IsOrderly.order_begin (hx : x.IsOrderly id h₀) (ht : x.errands[i]? = some t) (hphase : t.phase = .waiting)
    (hfree : x.isLocked = false) (hpasses : t.job.call.closes = false → x.hub.isClosed id = false) :
    (x.begin i t).HasOrder id h₀ := by
  obtain ⟨earlier, k, hserially, hleaves, hstands⟩ := hx.order
  have hopen := hx.isClosed_eq_false hleaves ht hphase hpasses
  have hpending : t.isPending = true := by rw [Errand.isPending, hphase]
  obtain ⟨hs, hresolved⟩ := hx.placed t (List.mem_of_getElem? ht)
  obtain ⟨parts, hparts⟩ := hresolved hphase
  cases hstands with
  | busy hlocked => cases hfree.symm.trans hlocked
  | free _ hidle hstarted hengine =>
      refine ⟨earlier, k, hserially.mono fun j u v hu hended => getElem?_set_of_ended ht hpending hu hended,
        hleaves.congr (hasClosed_iff_of_set rfl ht hpending (Bool.and_false _)), ?_⟩
      refine .busy rfl (List.getElem?_set_self (List.getElem?_eq_some_iff.1 ht).1) rfl (fun j ⟨u, hu, hworking⟩ => ?_)
        (congrArg (· ++ [i]) hstarted) hopen (t.job.divides.trans (by rw [hparts]; rfl)) ?_
      · exact (eq_some_of_getElem?_set hu).elim And.left fun hold => (hidle j ⟨u, hold.2, hworking⟩).elim
      · change (t.job.parts (x.hub.connection t.session.connection).db).whole x.hub.engine =
          (parts (k.connection id).db).whole k.engine
        rw [hs, hx.db, ← hleaves.db, hengine, Job.parts, hparts]

/-- A part of the work of an errand that is done leaves the rest of it to do. -/
theorem HasOrder.work (hx : x.HasOrder id h₀) {β : Type} {a : Action β}
    {next : Except Failure β → Routine Engine Account} {r : Except Failure β} {e : Engine}
    (ht : x.errands[i]? = some t) (hphase : t.phase = .working (.part a next)) (ha : a x.hub.engine = ending r e) : (x.proceed i t (next r) e).HasOrder id h₀ := by
  obtain ⟨earlier, k, hserially, hleaves, hstands⟩ := hx
  have hpending : t.isPending = true := by rw [Errand.isPending, hphase]
  refine ⟨earlier, k, hserially.mono fun j u v hu hended => getElem?_set_of_ended ht hpending hu hended,
    hleaves.congr (hasClosed_iff_of_set rfl ht hpending (Bool.and_false _)), ?_⟩
  cases hstands with
  | free _ hidle => exact (hidle i (isWorking_of_phase ht hphase)).elim
  | busy hlocked hu hphase' honly hstarted hopen hwork hrest =>
      cases honly i (isWorking_of_phase ht hphase)
      cases ht.symm.trans hu
      cases hphase.symm.trans hphase'
      refine .busy hlocked (List.getElem?_set_self (List.getElem?_eq_some_iff.1 ht).1) rfl
        (fun j ⟨u, hu, hworking⟩ => ?_) hstarted hopen hwork ((Routine.whole_part ha next).symm.trans hrest)
      exact (eq_some_of_getElem?_set hu).elim And.left fun hold => honly j ⟨u, hold.2, hworking⟩

/-- An errand that is over leaves behind what its call left, which is closed if the call was to close it. -/
theorem Leaves.finish {s : Session} {k k' h : Hub} {work : Nat → Action Account} {r : Except Failure Account}
    {e : Engine} (hleaves : x.Leaves s.connection h₀ k) (ht : x.errands[i]? = some t)
    (hopen : k.isClosed s.connection = false) (hwork : t.job.call.work? = some (.ok work))
    (hr : work (k.connection s.connection).db k.engine = ending r e) (hengine : k'.engine = e)
    (hconnection : k'.connection s.connection =
      { k.connection s.connection with isClosed := t.job.call.closes }) :
    (x.finish i t (t.job.call.answered r) h).Leaves s.connection h₀ k' where
  db := by
    rw [hconnection]
    exact hleaves.db
  atRest := by
    rw [hengine]
    exact Call.isAtRest_of_work hwork hleaves.atRest hr
  closed := by
    rw [Hub.isClosed, hconnection]
    refine ⟨fun hcloses => ⟨i, _, List.getElem?_set_self (List.getElem?_eq_some_iff.1 ht).1, ?_⟩, ?_⟩
    · rw [(Call.close_of_work hwork hcloses hr).2]
      exact Bool.and_eq_true_iff.2 ⟨hcloses, rfl⟩
    · rintro ⟨j, u, hu, hhas⟩
      rcases eq_some_of_getElem?_set hu with ⟨_, rfl⟩ | ⟨_, hold⟩
      · exact (Bool.and_eq_true_iff.1 hhas).1
      · cases hopen.symm.trans (hleaves.closed.2 ⟨j, u, hold, hhas⟩)
  shut := by
    rw [Hub.isClosed, hconnection, hengine, ← hleaves.db]
    refine Call.isClosed_of_work hwork hleaves.atRest ?_ hr
    rw [hleaves.db, hleaves.shut, hopen]

/-- An errand whose work is over has come to what it would have come to alone. -/
theorem HasOrder.settle (hx : x.HasOrder id h₀) (hs : t.session.connection = id) {r : Except Failure Account}
    {h : Hub} (ht : x.errands[i]? = some t) (hphase : t.phase = .working (.ended r))
    (hsame : SameConnections (x.hub.released id) h) :
    (x.finish i t (t.job.call.answered r) h).HasOrder id h₀ := by
  obtain ⟨earlier, k, hserially, hleaves, hstands⟩ := hx
  have hpending : t.isPending = true := by rw [Errand.isPending, hphase]
  cases hstands with
  | free _ hidle => exact (hidle i (isWorking_of_phase ht hphase)).elim
  | @busy _ _ _ work hlocked hu hphase' honly hstarted hopen hwork hrest =>
      cases honly i (isWorking_of_phase ht hphase)
      cases ht.symm.trans hu
      cases hphase.symm.trans hphase'
      have hr : work (k.connection id).db k.engine = ending r x.hub.engine :=
        hrest.symm.trans (Routine.whole_ended r _)
      subst hs
      obtain ⟨k', hrun, hengine, hconnection⟩ := t.job.call.run_of_open hwork hopen hr
      have hself : (x.finish i t (t.job.call.answered r) h).errands[i]? = some _ :=
        List.getElem?_set_self (List.getElem?_eq_some_iff.1 ht).1
      have hkept : (x.finish i t (t.job.call.answered r) h).Serially h₀ earlier k :=
        hserially.mono fun j u v hu hended => getElem?_set_of_ended ht hpending hu hended
      refine ⟨earlier ++ [i], k', .snoc hkept hself rfl hrun, hleaves.finish ht hopen hwork hr hengine hconnection,
        .free rfl (fun j ⟨u, hu, hworking⟩ => ?_) hstarted (hsame.engine.trans hengine.symm)⟩
      rcases eq_some_of_getElem?_set hu with ⟨_, rfl⟩ | ⟨hne, hold⟩
      · cases hworking
      · exact hne (honly j ⟨u, hold, hworking⟩)

end Turns

theorem Goes.order (hgoes : Goes id x y) (hx : x.IsOrderly id h₀) : y.HasOrder id h₀ := by
  cases hgoes with
  | refused => exact (isAside_concat rfl (.inr ⟨_, rfl⟩)).hasOrder hx.order
  | queued => exact (isAside_concat (Call.engine_asked _ _ _) (.inl rfl)).hasOrder hx.order
  | turnedAway ht hphase hfree => exact (isAside_turnAway ht hphase hfree).hasOrder hx.order
  | begun ht hphase hfree hpasses => exact hx.order_begin ht hphase hfree hpasses
  | worked ht hphase ha => exact hx.order.work ht hphase ha
  | settled ht hphase hsame =>
      exact hx.order.settle (hx.placed _ (List.mem_of_getElem? ht)).shares ht hphase hsame

theorem Serially.exists_ended {earlier : List Nat} {k : Hub} (hserially : x.Serially h₀ earlier k) {i : Nat}
    (hi : i ∈ earlier) : ∃ t v, x.errands[i]? = some t ∧ t.phase = .ended v := by
  induction hserially with
  | nil => cases hi
  | snoc _ ht hended _ ih =>
      rcases List.mem_append.1 hi with hi | hi
      · exact ih hi
      · exact List.mem_singleton.1 hi ▸ ⟨_, _, ht, hended⟩

/-- No errand begins twice. -/
theorem Goes.once (hgoes : Goes id x y) (horder : x.HasOrder id h₀) (honce : x.started.Nodup) : y.started.Nodup := by
  cases hgoes with
  | @begun i t ht hphase hfree =>
      obtain ⟨earlier, k, hserially, _, hstands⟩ := horder
      cases hstands with
      | busy hlocked => cases hfree.symm.trans hlocked
      | free _ _ hstarted =>
          refine List.nodup_append.2 ⟨honce, List.nodup_singleton i, fun j hj j' hj' => ?_⟩
          rintro rfl
          obtain ⟨u, v, hu, hended⟩ := hserially.exists_ended (hstarted ▸ hj)
          cases List.mem_singleton.1 hj'
          cases ht.symm.trans hu
          cases hphase.symm.trans hended
  | _ => exact honce

/-- Who has begun is recorded. -/
theorem Goes.recorded (hgoes : Goes id x y)
    (hrecorded : ∀ i t, x.errands[i]? = some t → t.hasBegun = true → i ∈ x.started) :
    ∀ i t, y.errands[i]? = some t → t.hasBegun = true → i ∈ y.started := by
  intro j u hu hbegun
  cases hgoes with
  | refused =>
      rcases eq_some_of_getElem?_concat hu with hold | ⟨_, rfl⟩
      · exact hrecorded j u hold hbegun
      · cases hbegun
  | queued =>
      rcases eq_some_of_getElem?_concat hu with hold | ⟨_, rfl⟩
      · exact hrecorded j u hold hbegun
      · cases hbegun
  | begun =>
      rcases eq_some_of_getElem?_set hu with ⟨rfl, _⟩ | ⟨_, hold⟩
      · exact List.mem_append_right _ (List.mem_singleton_self j)
      · exact List.mem_append_left _ (hrecorded j u hold hbegun)
  | turnedAway =>
      rcases eq_some_of_getElem?_set hu with ⟨_, rfl⟩ | ⟨_, hold⟩
      · cases hbegun
      · exact hrecorded j u hold hbegun
  | @worked i t _ _ _ _ _ ht hphase =>
      rcases eq_some_of_getElem?_set hu with ⟨rfl, _⟩ | ⟨_, hold⟩
      · exact hrecorded j t ht (by rw [Errand.hasBegun, hphase])
      · exact hrecorded j u hold hbegun
  | @settled i t _ _ ht hphase =>
      rcases eq_some_of_getElem?_set hu with ⟨rfl, _⟩ | ⟨_, hold⟩
      · exact hrecorded j t ht (by rw [Errand.hasBegun, hphase])
      · exact hrecorded j u hold hbegun

/-- Whatever happens next, a scene stays orderly. -/
theorem Goes.isOrderly (x y : Scene) (hx : x.IsOrderly id h₀) (hgoes : Goes id x y) : y.IsOrderly id h₀ := by
  obtain ⟨hmade, hdb, _⟩ := hgoes.connection hx.placed hx.made
  exact ⟨hgoes.placed hx.placed, hmade, hdb.trans hx.db, hgoes.counted hx.placed hx.made hx.counted,
    hgoes.closers hx.placed hx.made hx.closers, hgoes.order hx, hgoes.once hx.order hx.once,
    hgoes.recorded hx.recorded⟩

theorem getElem?_opening_ne_some {i : Nat} {t : Errand} : (opening h₀).errands[i]? ≠ some t := by
  have hnone : (opening h₀).errands[i]? = none := rfl
  rw [hnone]
  exact (Option.some_ne_none t).symm

theorem isOrderly_opening (hopen : h₀.isClosed id = false) (hjobs : (h₀.connection id).jobs = 0)
    (hrest : h₀.engine.IsAtRest) (hdb : (h₀.engine.connection (h₀.connection id).db).isClosed = false) :
    (opening h₀).IsOrderly id h₀ where
  placed _ ht := absurd ht List.not_mem_nil
  made := Hub.lt_of_isClosed hopen
  db := rfl
  counted := hjobs
  closers := Nat.zero_le _
  order := by
    refine ⟨[], h₀, .nil, ⟨rfl, hrest, ⟨fun hclosed => ?_, fun ⟨i, t, ht, _⟩ => ?_⟩, hdb.trans hopen.symm⟩, ?_⟩
    · cases hopen.symm.trans hclosed
    · exact absurd ht getElem?_opening_ne_some
    · exact .free rfl (fun _ ⟨_, ht, _⟩ => getElem?_opening_ne_some ht) rfl rfl
  once := List.nodup_nil
  recorded _ _ ht := absurd ht getElem?_opening_ne_some

/-- A scene is orderly at every moment. -/
theorem IsOrderly.run (hx : x.IsOrderly id h₀) (moves : List (Move id)) : (x.run moves).IsOrderly id h₀ :=
  keeps_run Goes.isOrderly (fun _ h t ht => (h.placed t ht).shares) hx moves

end Scene
end RecordStore
