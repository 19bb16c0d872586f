import RecordStore.Proofs.Registry.Entries

/-!
Owners of keys. Connections that were closed stay in a registry until their key is asked for, while others are
opened and taken out late. All the same a registry hands out the connection that came to own the key last and
was not taken out since, as long as that is open.
-/

namespace RecordStore
namespace Registry

/-- What happens to a registry or to a connection, and what comes of it. -/
inductive Deed where
  | looked (k : RegistryKey) (found : Option Nat)
  /-- A connection is to be registered, and its key has an owner then. -/
  | registered (id owner : Nat)
  /-- What is under a key is to be taken out. -/
  | evicted (k : RegistryKey) (id : Option Nat) (isOut : Bool)
  | closed (id : Nat)

/-- Whether a connection was closed by some deeds. The last one comes first. -/
def isClosed (past : List Deed) (id : Nat) : Bool :=
  past.any fun
    | .closed other => other == id
    | _ => false

/-- The connection that came to own a key last, unless it was taken out since. -/
def owner (keyOf : Nat → RegistryKey) (k : RegistryKey) : List Deed → Option Nat
  | [] => none
  | .registered id other :: past =>
    if id = other ∧ (keyOf id).same k = true then some id else owner keyOf k past
  | .evicted l _ true :: past => if l.same k = true then none else owner keyOf k past
  | _ :: past => owner keyOf k past

/-- The owner of a key, if it is open. -/
def liveOwner (keyOf : Nat → RegistryKey) (k : RegistryKey) (past : List Deed) : Option Nat :=
  (owner keyOf k past).filter fun id => !isClosed past id

/-- Deeds, and the registry that they lead to. Each connection has its key. -/
inductive IsReached (keyOf : Nat → RegistryKey) : List Deed → Registry → Prop
  | start : IsReached keyOf [] Registry.empty
  | look {past : List Deed} {r : Registry} (h : IsReached keyOf past r) (k : RegistryKey) :
      IsReached keyOf (.looked k (r.get (isClosed past) k).1 :: past) (r.get (isClosed past) k).2
  | register {past : List Deed} {r : Registry} (h : IsReached keyOf past r) (id : Nat) :
      IsReached keyOf (.registered id (r.insert (isClosed past) (keyOf id) id).1 :: past)
        (r.insert (isClosed past) (keyOf id) id).2
  | evict {past : List Deed} {r : Registry} (h : IsReached keyOf past r) (k : RegistryKey)
      (id : Option Nat) : IsReached keyOf (.evicted k id (r.evict k id).1 :: past) (r.evict k id).2
  | close {past : List Deed} {r : Registry} (h : IsReached keyOf past r) (id : Nat) :
      IsReached keyOf (.closed id :: past) r

/-- A registry has connections under their own keys, one for a key, and has the open owners of keys. -/
structure KeepsOwners (keyOf : Nat → RegistryKey) (past : List Deed) (r : Registry) : Prop where
  keyed : ∀ entry ∈ r.entries, entry.1 = keyOf entry.2
  once : r.entries.Pairwise fun a b => a.1.same b.1 = false
  sound : ∀ k id, r.find? k = some id → owner keyOf k past = some id
  complete : ∀ k id, owner keyOf k past = some id → isClosed past id = false → r.find? k = some id

section Steps

variable {keyOf : Nat → RegistryKey} {past : List Deed} {r : Registry} {k l : RegistryKey} {id : Nat}

/-- What looking up hands out. -/
theorem KeepsOwners.get_eq_liveOwner (h : KeepsOwners keyOf past r) (k : RegistryKey) :
    (r.get (isClosed past) k).1 = liveOwner keyOf k past := by
  rw [liveOwner]
  rcases r.get_cases (isClosed past) k with
    ⟨hfind, hget⟩ | ⟨id, hfind, hclosed, hget⟩ | ⟨id, hfind, hopen, hget⟩
  · rw [hget, eq_comm, Option.filter_eq_none_iff]
    intro id howner hopen
    rw [h.complete k id howner (by simpa using hopen)] at hfind
    cases hfind
  · rw [hget, h.sound k id hfind, Option.filter_some, hclosed]
    rfl
  · rw [hget, h.sound k id hfind, Option.filter_some, hopen]
    rfl

variable (hkeys : ∀ id, (keyOf id).IsNumbered)

include hkeys

theorem KeepsOwners.isNumbered (h : KeepsOwners keyOf past r) : r.IsNumbered := by
  intro entry hentry
  rw [h.keyed entry hentry]
  exact hkeys entry.2

/-- Looking up takes out closed connections at most. -/
theorem KeepsOwners.get (h : KeepsOwners keyOf past r) (k : RegistryKey) :
    KeepsOwners keyOf past (r.get (isClosed past) k).2 := by
  rcases r.get_cases (isClosed past) k with ⟨_, hget⟩ | ⟨id, hfind, hclosed, hget⟩ | ⟨_, _, _, hget⟩
  · rw [hget]
    exact h
  · have hr := h.isNumbered hkeys
    rw [hget]
    refine ⟨fun entry hentry => h.keyed entry (List.mem_of_mem_filter hentry), h.once.filter _, ?_, ?_⟩
    · intro l other hother
      by_cases hl : k.standsFor = l.standsFor
      · rw [find?_remove_of_eq hr hl] at hother
        cases hother
      · rw [find?_remove_of_ne hr hl] at hother
        exact h.sound l other hother
    · intro l other howner hopen
      have hother := h.complete l other howner hopen
      by_cases hl : k.standsFor = l.standsFor
      · rw [← find?_congr hr hl, hfind] at hother
        cases hother
        rw [hclosed] at hopen
        cases hopen
      · rw [find?_remove_of_ne hr hl]
        exact hother
  · rw [hget]
    exact h

/-- What is taken out from under a key is owned no longer. -/
theorem KeepsOwners.evict (h : KeepsOwners keyOf past r) (k : RegistryKey) (id : Option Nat) :
    KeepsOwners keyOf (.evicted k id (r.evict k id).1 :: past) (r.evict k id).2 := by
  rcases r.evict_cases k id with ⟨_, hevict⟩ | ⟨other, hfind, _, hevict⟩
  · rw [hevict]
    exact ⟨h.keyed, h.once, h.sound, h.complete⟩
  · have hr := h.isNumbered hkeys
    have hk := isNumbered_of_find? hr hfind
    have howner (l : RegistryKey) : owner keyOf l (.evicted k id true :: past) =
        if k.same l = true then none else owner keyOf l past := rfl
    rw [hevict]
    refine ⟨fun entry hentry => h.keyed entry (List.mem_of_mem_filter hentry), h.once.filter _, ?_, ?_⟩
    · intro l found hfound
      by_cases hl : k.standsFor = l.standsFor
      · rw [find?_remove_of_eq hr hl] at hfound
        cases hfound
      · rw [find?_remove_of_ne hr hl] at hfound
        rw [howner, if_neg (mt (RegistryKey.same_iff hk).1 hl)]
        exact h.sound l found hfound
    · intro l found hfound hopen
      by_cases hl : k.standsFor = l.standsFor
      · rw [howner, if_pos ((RegistryKey.same_iff hk).2 hl)] at hfound
        cases hfound
      · rw [howner, if_neg (mt (RegistryKey.same_iff hk).1 hl)] at hfound
        rw [find?_remove_of_ne hr hl]
        exact h.complete l found hfound hopen

/-- A connection that is entered where nothing was found owns its key. -/
theorem KeepsOwners.concat (h : KeepsOwners keyOf past r) (id : Nat) (hnone : r.find? (keyOf id) = none) :
    KeepsOwners keyOf (.registered id id :: past) ⟨r.entries ++ [(keyOf id, id)]⟩ := by
  have hr := h.isNumbered hkeys
  have howner (l : RegistryKey) : owner keyOf l (.registered id id :: past) =
      if id = id ∧ (keyOf id).same l = true then some id else owner keyOf l past := rfl
  constructor
  · intro entry hentry
    rcases List.mem_append.1 hentry with hentry | hentry
    · exact h.keyed entry hentry
    · cases List.mem_singleton.1 hentry
      rfl
  · rw [List.pairwise_append]
    refine ⟨h.once, List.pairwise_singleton _ _, ?_⟩
    intro entry hentry last hlast
    cases List.mem_singleton.1 hlast
    rw [find?, Option.map_eq_none_iff, List.find?_eq_none] at hnone
    simpa using hnone entry hentry
  · intro l found hfound
    by_cases hl : (keyOf id).standsFor = l.standsFor
    · rw [find?_concat_of_eq (hkeys id) hr hnone hl] at hfound
      rw [howner, if_pos ⟨rfl, (RegistryKey.same_iff (hkeys id)).2 hl⟩]
      exact hfound
    · rw [find?_concat_of_ne (hkeys id) hl] at hfound
      rw [howner, if_neg fun hsame => hl ((RegistryKey.same_iff (hkeys id)).1 hsame.2)]
      exact h.sound l found hfound
  · intro l found hfound hopen
    by_cases hl : (keyOf id).standsFor = l.standsFor
    · rw [howner, if_pos ⟨rfl, (RegistryKey.same_iff (hkeys id)).2 hl⟩] at hfound
      rw [find?_concat_of_eq (hkeys id) hr hnone hl]
      exact hfound
    · rw [howner, if_neg fun hsame => hl ((RegistryKey.same_iff (hkeys id)).1 hsame.2)] at hfound
      rw [find?_concat_of_ne (hkeys id) hl]
      exact h.complete l found hfound hopen

/-- To register a connection again where it is the owner changes nothing. -/
theorem KeepsOwners.again (h : KeepsOwners keyOf past r) {other : Nat}
    (hfind : r.find? (keyOf id) = some other) : KeepsOwners keyOf (.registered id other :: past) r := by
  have howner (l : RegistryKey) : owner keyOf l (.registered id other :: past) = owner keyOf l past := by
    refine ite_eq_right_iff.2 fun ⟨heq, hsame⟩ => ?_
    subst heq
    rw [find?_congr (h.isNumbered hkeys) ((RegistryKey.same_iff (hkeys id)).1 hsame)] at hfind
    exact (h.sound l id hfind).symm
  refine ⟨h.keyed, h.once, fun l found hfound => ?_, fun l found hfound hopen => ?_⟩
  · rw [howner]
    exact h.sound l found hfound
  · rw [howner] at hfound
    exact h.complete l found hfound hopen

theorem KeepsOwners.insert (h : KeepsOwners keyOf past r) (id : Nat) :
    KeepsOwners keyOf (.registered id (r.insert (isClosed past) (keyOf id) id).1 :: past)
      (r.insert (isClosed past) (keyOf id) id).2 := by
  rcases r.insert_cases (isClosed past) (keyOf id) id with ⟨other, hfound, hinsert⟩ | ⟨hnone, hinsert⟩
  · rcases r.get_cases (isClosed past) (keyOf id) with ⟨_, hget⟩ | ⟨_, _, _, hget⟩ | ⟨_, hfind, _, hget⟩
    · rw [hget] at hfound
      cases hfound
    · rw [hget] at hfound
      cases hfound
    · rw [hinsert]
      rw [hget] at hfound ⊢
      cases hfound
      exact h.again hkeys hfind
  · rw [hinsert]
    exact (h.get hkeys (keyOf id)).concat hkeys id (find?_of_get_eq_none (h.isNumbered hkeys) hnone)

theorem keepsOwners_of_isReached (h : IsReached keyOf past r) : KeepsOwners keyOf past r := by
  induction h with
  | start => exact ⟨nofun, .nil, nofun, nofun⟩
  | look _ k ih =>
      have hget := ih.get hkeys k
      exact ⟨hget.keyed, hget.once, hget.sound, hget.complete⟩
  | register _ id ih => exact ih.insert hkeys id
  | evict _ k id ih => exact ih.evict hkeys k id
  | close _ id ih =>
      refine ⟨ih.keyed, ih.once, ih.sound, fun l found howner hopen => ?_⟩
      exact ih.complete l found howner (Bool.or_eq_false_iff.1 hopen).2

end Steps

/-! ### What is handed out -/

section Answers

variable {keyOf : Nat → RegistryKey} {past : List Deed} {r : Registry} {k : RegistryKey} {id : Nat}

theorem KeepsOwners.liveOwner_eq_some_iff (h : KeepsOwners keyOf past r) :
    liveOwner keyOf k past = some id ↔ r.find? k = some id ∧ isClosed past id = false := by
  rw [liveOwner, Option.filter_eq_some_iff, Bool.not_eq_true']
  constructor
  · rintro ⟨howner, hopen⟩
    exact ⟨h.complete k id howner hopen, hopen⟩
  · rintro ⟨hfind, hopen⟩
    exact ⟨h.sound k id hfind, hopen⟩

/-- What is found under a key is all that is there. -/
theorem KeepsOwners.eq_of_find? (h : KeepsOwners keyOf past r) (hr : r.IsNumbered)
    (hfind : r.find? k = some id) : ∀ entry ∈ r.entries, entry.1.same k = true → entry.2 = id := by
  intro entry hentry hsame
  obtain ⟨found, hfound, rfl⟩ := Option.map_eq_some_iff.1 hfind
  obtain ⟨hfoundSame, before, after, hsplit, hbefore⟩ := List.find?_eq_some_iff_append.1 hfound
  have honce := h.once
  rw [hsplit, List.pairwise_append, List.pairwise_cons] at honce
  rw [hsplit] at hentry
  rcases List.mem_append.1 hentry with hentry | hentry
  · simpa [hsame] using hbefore entry hentry
  rcases List.mem_cons.1 hentry with rfl | hentry
  · rfl
  · -- a later entry for the same key would stand for what the one that is found stands for
    have hmem : found ∈ r.entries := hsplit ▸ List.mem_append_right _ List.mem_cons_self
    have hlater : entry ∈ r.entries := hsplit ▸ List.mem_append_right _ (List.mem_cons_of_mem _ hentry)
    have hapart := honce.2.1.1 entry hentry
    rw [← Bool.not_eq_true, RegistryKey.same_iff (hr found hmem)] at hapart
    rw [RegistryKey.same_iff (hr found hmem)] at hfoundSame
    rw [RegistryKey.same_iff (hr entry hlater)] at hsame
    exact absurd (hfoundSame.trans hsame.symm) hapart

theorem KeepsOwners.insert_of_liveOwner (h : KeepsOwners keyOf past r) {other : Nat}
    (howner : liveOwner keyOf k past = some other) : r.insert (isClosed past) k id = (other, r) := by
  obtain ⟨hfind, hopen⟩ := h.liveOwner_eq_some_iff.1 howner
  have hget : r.get (isClosed past) k = (some other, r) := by simp [Registry.get, hfind, hopen]
  rw [Registry.insert, hget]

theorem KeepsOwners.insert_of_none (h : KeepsOwners keyOf past r) (hr : r.IsNumbered) (hk : k.IsNumbered)
    (hnone : liveOwner keyOf k past = none) : ∃ s, r.insert (isClosed past) k id = (id, s) ∧
      s.find? k = some id ∧ ∀ l, k.same l = false → s.find? l = r.find? l := by
  rw [← h.get_eq_liveOwner] at hnone
  rcases r.insert_cases (isClosed past) k id with ⟨_, hfound, _⟩ | ⟨_, hinsert⟩
  · rw [hfound] at hnone
    cases hnone
  · refine ⟨_, hinsert, ?_, fun l hl => ?_⟩
    · have hrest : (r.get (isClosed past) k).2.IsNumbered :=
        fun entry hentry => hr entry (r.entries_get_subset _ k hentry)
      exact find?_concat_of_eq hk hrest (find?_of_get_eq_none hr hnone) rfl
    · rw [← Bool.not_eq_true, RegistryKey.same_iff hk] at hl
      rw [find?_concat_of_ne hk hl]
      rcases r.get_cases (isClosed past) k with ⟨_, hget⟩ | ⟨_, _, _, hget⟩ | ⟨_, _, _, hget⟩
      · rw [hget]
      · rw [hget]
        exact find?_remove_of_ne hr hl
      · rw [hget]

/-- What taking out does, read off the entries alone. -/
theorem KeepsOwners.evict_eq (h : KeepsOwners keyOf past r) (hr : r.IsNumbered) (k : RegistryKey) (id : Nat) :
    (r.evict k (some id)).1 = r.entries.any (fun entry => entry.1.same k && entry.2 == id) ∧
      (r.evict k (some id)).2.entries = r.entries.filter fun entry => !(entry.1.same k && entry.2 == id) := by
  rcases r.evict_cases k (some id) with ⟨hother, hevict⟩ | ⟨owner, hfind, howner, hevict⟩
  · have hnot (entry : RegistryKey × Nat) (hentry : entry ∈ r.entries) :
        (entry.1.same k && entry.2 == id) = false := by
      rw [Bool.and_eq_false_imp]
      intro hsame
      cases hfind : r.find? k with
      | none =>
          rw [find?, Option.map_eq_none_iff, List.find?_eq_none] at hfind
          exact absurd hsame (hfind entry hentry)
      | some owner =>
          obtain ⟨_, heq, hne⟩ := hother owner hfind
          cases heq
          rw [h.eq_of_find? hr hfind entry hentry hsame]
          exact beq_false_of_ne hne.symm
    rw [hevict]
    constructor
    · rw [eq_comm, List.any_eq_false]
      exact fun entry hentry => by simp [hnot entry hentry]
    · rw [eq_comm, List.filter_eq_self]
      exact fun entry hentry => by simp [hnot entry hentry]
  · cases howner id rfl
    have hmeant (entry : RegistryKey × Nat) (hentry : entry ∈ r.entries) :
        (entry.1.same k && entry.2 == id) = entry.1.same k := by
      rw [Bool.and_eq_left_iff_imp]
      exact fun hsame => beq_iff_eq.2 (h.eq_of_find? hr hfind entry hentry hsame)
    rw [hevict]
    constructor
    · obtain ⟨entry, hfound, _⟩ := Option.map_eq_some_iff.1 hfind
      have hentry := List.mem_of_find?_eq_some hfound
      have hsame := List.find?_some hfound
      rw [eq_comm, List.any_eq_true]
      exact ⟨entry, hentry, (hmeant entry hentry).trans hsame⟩
    · exact List.filter_congr fun entry hentry => by rw [hmeant entry hentry]

/-- Taking out one connection leaves the open owners but that. -/
theorem KeepsOwners.get_evict (h : KeepsOwners keyOf past r) (hr : r.IsNumbered) (l : RegistryKey) {other : Nat}
    (howner : liveOwner keyOf k past = some other) (hne : id ≠ other) :
    ((r.evict l (some id)).2.get (isClosed past) k).1 = some other := by
  obtain ⟨hfind, hopen⟩ := h.liveOwner_eq_some_iff.1 howner
  have hkept : (r.evict l (some id)).2.find? k = some other := by
    rcases r.evict_cases l (some id) with ⟨_, hevict⟩ | ⟨found, hfound, hmeant, hevict⟩
    · rw [hevict]
      exact hfind
    · rw [hevict]
      by_cases heq : l.standsFor = k.standsFor
      · rw [find?_congr hr heq, hfind] at hfound
        cases hfound
        exact absurd (hmeant id rfl) hne
      · rw [find?_remove_of_ne hr heq]
        exact hfind
  simp [Registry.get, hkept, hopen]

end Answers

/-- What a registry answers after some deeds, and what becomes of it. -/
structure HandsOutOwners (keyOf : Nat → RegistryKey) (past : List Deed) (r : Registry) : Prop where
  /-- Each connection is under its own key, and no two of them are under one. -/
  keyed : ∀ entry ∈ r.entries, entry.1 = keyOf entry.2
  once : r.entries.Pairwise fun a b => a.1.same b.1 = false
  /-- Looking up yields the connection that came to own the key last and was not taken out, if it is open. -/
  look : ∀ k, (r.get (isClosed past) k).1 = liveOwner keyOf k past
  /-- An owner that is open stays when another connection is to be registered. -/
  insertLive : ∀ id other, liveOwner keyOf (keyOf id) past = some other →
    r.insert (isClosed past) (keyOf id) id = (other, r)
  /-- Where there is none, the connection comes to own its key, and the other keys keep theirs. -/
  insertNew : ∀ id, liveOwner keyOf (keyOf id) past = none →
    ∃ s, r.insert (isClosed past) (keyOf id) id = (id, s) ∧ s.find? (keyOf id) = some id ∧
      ∀ k, (keyOf id).same k = false → s.find? k = r.find? k
  /-- Only the entry under the key is taken out, and only if it has the connection that is meant. -/
  evict : ∀ k id, (r.evict k (some id)).1 = r.entries.any (fun entry => entry.1.same k && entry.2 == id) ∧
    (r.evict k (some id)).2.entries = r.entries.filter fun entry => !(entry.1.same k && entry.2 == id)
  /-- So a connection that is taken out late takes no other one with it. -/
  evictLate : ∀ k id other, liveOwner keyOf k past = some other → id ≠ other → ∀ l,
    ((r.evict l (some id)).2.get (isClosed past) k).1 = some other

/-- After any deeds, a registry hands out the open owners of keys, if the versions of connections are numbers. -/
theorem handsOutOwners_of_isReached {keyOf : Nat → RegistryKey} (hkeys : ∀ id, (keyOf id).IsNumbered)
    {past : List Deed} {r : Registry} (h : IsReached keyOf past r) : HandsOutOwners keyOf past r := by
  have howners := keepsOwners_of_isReached hkeys h
  have hr := howners.isNumbered hkeys
  exact {
    keyed := howners.keyed
    once := howners.once
    look := howners.get_eq_liveOwner
    insertLive := fun _ _ howner => howners.insert_of_liveOwner howner
    insertNew := fun id hnone => howners.insert_of_none hr (hkeys id) hnone
    evict := howners.evict_eq hr
    evictLate := fun _ _ _ howner hne l => howners.get_evict hr l howner hne }

/-- Connection 0 owned the key, was closed, was replaced by connection 1, and is taken out late. -/
def replaced : List Deed :=
  [.evicted ⟨"app", .int 1⟩ (some 0) false, .registered 1 1, .closed 0, .registered 0 0]

theorem handsOutOwners_of_isReached_replaced :
    (∀ id, ((fun _ : Nat => RegistryKey.mk "app" (.int 1)) id).IsNumbered) ∧
      IsReached (fun _ => ⟨"app", .int 1⟩) replaced ⟨[(⟨"app", .int 1⟩, 1)]⟩ ∧
      HandsOutOwners (fun _ => ⟨"app", .int 1⟩) replaced ⟨[(⟨"app", .int 1⟩, 1)]⟩ ∧
      liveOwner (fun _ => ⟨"app", .int 1⟩) ⟨"app", .int 1⟩ replaced = some 1 := by
  have hkeys : ∀ id, ((fun _ : Nat => RegistryKey.mk "app" (.int 1)) id).IsNumbered := fun _ => nofun
  have hreached : IsReached (fun _ => ⟨"app", .int 1⟩) replaced ⟨[(⟨"app", .int 1⟩, 1)]⟩ :=
    (((IsReached.start.register 0).close 0).register 1).evict ⟨"app", .int 1⟩ (some 0)
  exact ⟨hkeys, hreached, handsOutOwners_of_isReached hkeys hreached, by cbv⟩

end Registry
end RecordStore
