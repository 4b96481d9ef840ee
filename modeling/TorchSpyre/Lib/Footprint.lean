import Mathlib

/-!
# Actions on a store

An action reads some places of a store and writes some.  Actions that keep out of each
other's way commute, and a queue may take them in any order in which each waits for the
earlier ones that are in its way.
-/

namespace Lib

/-- What is done to a store, and the places it depends on and changes. -/
structure Action (Place Value : Type*) where
  effect : (Place → Value) → Place → Value
  reads : Set Place
  writes : Set Place
  frame : ∀ store, ∀ place ∉ writes, effect store place = store place
  determined : ∀ first second, (∀ place ∈ reads, first place = second place) →
    ∀ place ∈ writes, effect first place = effect second place

namespace Action

variable {Place Value : Type*}

/-- Neither action writes what the other reads or writes. -/
def Apart (first second : Action Place Value) : Prop :=
  Disjoint first.writes second.writes ∧ Disjoint first.writes second.reads ∧
    Disjoint first.reads second.writes

theorem Apart.symm {first second : Action Place Value} (apart : first.Apart second) :
    second.Apart first :=
  ⟨apart.1.symm, apart.2.2.symm, apart.2.1.symm⟩

/-- What an action writes does not change when another one keeps apart from it. -/
theorem Apart.effect_of_mem {first second : Action Place Value} (apart : first.Apart second)
    (store : Place → Value) {place : Place} (written : place ∈ second.writes) :
    second.effect (first.effect store) place = second.effect store place := by
  apply second.determined _ _ _ place written
  intro other isRead
  exact first.frame store other (Set.disjoint_right.mp apart.2.1 isRead)

theorem Apart.commute {first second : Action Place Value} (apart : first.Apart second)
    (store : Place → Value) :
    first.effect (second.effect store) = second.effect (first.effect store) := by
  funext place
  by_cases byFirst : place ∈ first.writes
  · have notSecond : place ∉ second.writes := Set.disjoint_left.mp apart.1 byFirst
    rw [apart.symm.effect_of_mem store byFirst, second.frame _ place notSecond]
  · rw [first.frame _ place byFirst]
    by_cases bySecond : place ∈ second.writes
    · rw [apart.effect_of_mem store bySecond]
    · rw [second.frame _ place bySecond, second.frame _ place bySecond, first.frame _ place byFirst]

/-- One action after another. -/
def andThen (first second : Action Place Value) : Action Place Value where
  effect := fun store => second.effect (first.effect store)
  reads := first.reads ∪ second.reads
  writes := first.writes ∪ second.writes
  frame := by
    intro store place untouched
    rw [second.frame _ place fun bySecond => untouched (.inr bySecond),
      first.frame _ place fun byFirst => untouched (.inl byFirst)]
  determined := by
    intro left right agree place written
    have afterFirst : ∀ other, left other = right other ∨ other ∈ first.writes →
        first.effect left other = first.effect right other := by
      intro other either
      by_cases byFirst : other ∈ first.writes
      · exact first.determined left right (fun read isRead => agree read (.inl isRead)) other byFirst
      · rw [first.frame left other byFirst, first.frame right other byFirst]
        exact either.resolve_right byFirst
    by_cases bySecond : place ∈ second.writes
    · apply second.determined _ _ _ place bySecond
      exact fun other isRead => afterFirst other (.inl (agree other (.inr isRead)))
    · rw [second.frame _ place bySecond, second.frame _ place bySecond]
      exact afterFirst place (.inr (written.resolve_right bySecond))

/-- Values put down at places. -/
def fill (value : Place → Option Value) : Action Place Value where
  effect := fun store place => (value place).getD (store place)
  reads := ∅
  writes := {place | (value place).isSome}
  frame := by
    intro store place untouched
    rw [Option.not_isSome_iff_eq_none.mp untouched, Option.getD_none]
  determined := by
    intro first second _ place written
    obtain ⟨content, isContent⟩ := Option.isSome_iff_exists.mp written
    rw [isContent, Option.getD_some, Option.getD_some]

/-- Places that take the values of other places. -/
def copy (source : Place → Option Place) : Action Place Value where
  effect := fun store place => ((source place).map store).getD (store place)
  reads := {other | ∃ place, source place = some other}
  writes := {place | (source place).isSome}
  frame := by
    intro store place untouched
    rw [Option.not_isSome_iff_eq_none.mp untouched, Option.map_none, Option.getD_none]
  determined := by
    intro first second agree place written
    obtain ⟨other, isSource⟩ := Option.isSome_iff_exists.mp written
    rw [isSource, Option.map_some, Option.map_some, Option.getD_some, Option.getD_some]
    exact agree other ⟨place, isSource⟩

end Action

section Queue

variable {Item Place Value : Type*} (action : Item → Action Place Value)

/-- All items in order. -/
def drain (items : List Item) (store : Place → Value) : Place → Value :=
  items.foldl (fun later item => (action item).effect later) store

@[simp]
theorem drain_nil (store : Place → Value) : drain action [] store = store := rfl

theorem drain_cons (item : Item) (items : List Item) (store : Place → Value) :
    drain action (item :: items) store = drain action items ((action item).effect store) := rfl

theorem drain_append (first second : List Item) (store : Place → Value) :
    drain action (first ++ second) store = drain action second (drain action first store) :=
  List.foldl_append

/-- What no item writes stays. -/
theorem drain_frame {items : List Item} {place : Place}
    (untouched : ∀ item ∈ items, place ∉ (action item).writes) (store : Place → Value) :
    drain action items store place = store place := by
  induction items generalizing store with
  | nil => rfl
  | cons item items inductionHypothesis =>
      rw [drain_cons, inductionHypothesis (fun other inside =>
        untouched other (List.mem_cons_of_mem _ inside))]
      exact (action item).frame store place (untouched item List.mem_cons_self)

/-- An item may come before those that keep apart from it. -/
theorem drain_early {front : List Item} {item : Item}
    (apart : ∀ earlier ∈ front, (action earlier).Apart (action item)) (back : List Item)
    (store : Place → Value) :
    drain action (front ++ item :: back) store = drain action (front ++ back)
        ((action item).effect store) := by
  induction front generalizing store with
  | nil => rfl
  | cons earlier front inductionHypothesis =>
      rw [List.cons_append, drain_cons, List.cons_append, drain_cons,
        inductionHypothesis fun other inside => apart other (List.mem_cons_of_mem _ inside)]
      rw [(apart earlier List.mem_cons_self).commute]

/-- The store, and the items that are still to act on it. -/
structure Queue (Item Place Value : Type*) where
  pending : List Item
  store : Place → Value

variable (waits : Item → Item → Prop)

/-- An item acts that waits for no earlier one. -/
inductive Queue.Takes : Queue Item Place Value → Queue Item Place Value → Prop where
  | item {front : List Item} {item : Item} {back : List Item} {store : Place → Value}
      (ready : ∀ earlier ∈ front, ¬ waits earlier item) :
      Queue.Takes ⟨front ++ item :: back, store⟩ ⟨front ++ back, (action item).effect store⟩

variable {action waits}

/-- Whatever acts next, the rest ends in the same store. -/
theorem Queue.Takes.drain {queue next : Queue Item Place Value} (takes : queue.Takes action waits next)
    (orderly : ∀ earlier ∈ queue.pending, ∀ later ∈ queue.pending, ¬ waits earlier later →
      (action earlier).Apart (action later)) :
    Lib.drain action next.pending next.store = Lib.drain action queue.pending queue.store := by
  cases takes with
  | item ready =>
      refine (drain_early action ?_ _ _).symm
      intro earlier inFront
      exact orderly earlier (List.mem_append_left _ inFront) _
        (List.mem_append_right _ List.mem_cons_self) (ready earlier inFront)

theorem Queue.Takes.subset {queue next : Queue Item Place Value} (takes : queue.Takes action waits next) :
    next.pending ⊆ queue.pending := by
  cases takes with
  | item ready =>
      intro other inside
      rcases List.mem_append.mp inside with inFront | inBack
      · exact List.mem_append_left _ inFront
      · exact List.mem_append_right _ (List.mem_cons_of_mem _ inBack)

/-- The first item of a queue can always act. -/
theorem Queue.takes_first (item : Item) (rest : List Item) (store : Place → Value) :
    Queue.Takes action waits ⟨item :: rest, store⟩ ⟨rest, (action item).effect store⟩ :=
  @Queue.Takes.item _ _ _ action waits [] item rest store (List.forall_mem_nil _)

end Queue

end Lib
