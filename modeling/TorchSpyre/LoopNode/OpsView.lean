import Mathlib
import TorchSpyre.LoopNode.Holders
import TorchSpyre.LoopNode.View

/-!
# The view against a plain list

The view caches the flat list, finds an operation by identity in the list that holds it and edits
that list. Iterators read the length again at every step. As long as no operation is written that
the view holds at another position, every call does and returns what it does on a plain list.
-/

namespace TorchSpyre.LoopNode

open Lib

variable {Label Op : Type} [DecidableEq Op]

inductive ListError
  | valueError
  | indexError
  | stopIteration
  | unknownIterator
  deriving DecidableEq, Repr

structure OpsView (Label Op : Type) where
  real : List (RoseTree Label Op)
  cache : Option (List Op)

namespace OpsView

/-- `_flat` -/
def flat (view : OpsView Label Op) : List Op := view.cache.getD (RoseTree.leaves view.real)

/-- The view once `_flat` has been asked. -/
def asked (view : OpsView Label Op) : OpsView Label Op := { view with cache := some view.flat }

/-- `_locate`, and an edit of the list found. -/
def editBeside (view : OpsView Label Op) (op : Op)
    (edit : ℕ → List (RoseTree Label Op) → List (RoseTree Label Op)) :
    Except ListError Unit × OpsView Label Op :=
  match owningList op view.real with
  | none => (.error .valueError, view)
  | some (path, index) => (.ok (), ⟨editAt (edit index) path view.real, none⟩)

def append (view : OpsView Label Op) (op : Op) : Except ListError Unit × OpsView Label Op :=
  (.ok (), ⟨view.real ++ [.leaf op], none⟩)

def insert (view : OpsView Label Op) (i : ℤ) (op : Op) : Except ListError Unit × OpsView Label Op :=
  let flat := view.flat
  let n := flat.length
  let i := if i < 0 then max (i + n) 0 else i
  if i ≥ n then (.ok (), ⟨view.real ++ [.leaf op], none⟩)
  else
    match flat[i.toNat]? with
    | none => (.error .indexError, view.asked)
    | some beside => editBeside ⟨view.real, none⟩ beside fun index list => list.insertIdx index (.leaf op)

/-- `equals` is the `==` of the operations. -/
def remove (equals : Op → Op → Bool) (view : OpsView Label Op) (op : Op) :
    Except ListError Unit × OpsView Label Op :=
  match view.flat.find? fun entry => entry = op || equals entry op with
  | none => (.error .valueError, view.asked)
  | some found => view.asked.editBeside found fun index list => list.eraseIdx index

def setItem (view : OpsView Label Op) (i : ℤ) (op : Op) : Except ListError Unit × OpsView Label Op :=
  match (itemPosition view.flat.length i).bind (view.flat[·]?) with
  | none => (.error .indexError, view.asked)
  | some old => view.asked.editBeside old fun index list => list.set index (.leaf op)

def delItem (view : OpsView Label Op) (i : ℤ) : Except ListError Unit × OpsView Label Op :=
  match (itemPosition view.flat.length i).bind (view.flat[·]?) with
  | none => (.error .indexError, view.asked)
  | some old => view.asked.editBeside old fun index list => list.eraseIdx index

end OpsView

/-! ## Iterators -/

/-- Where an iterator reads next. `fromEnd` is a `__reversed__` generator that has not run yet, and so
has not read the length. -/
inductive Cursor
  | forward (position : ℕ)
  | fromEnd
  | backward (position : ℤ)
  | finished
  deriving DecidableEq, Repr

def readBackward (flat : List Op) (position : ℤ) : Except ListError Op × Cursor :=
  if 0 ≤ position then
    match flat[position.toNat]? with
    | some op => (.ok op, .backward (position - 1))
    | none => (.error .stopIteration, .finished)
  else (.error .stopIteration, .finished)

def advance (flat : List Op) : Cursor → Except ListError Op × Cursor
  | .forward position =>
      match flat[position]? with
      | some op => (.ok op, .forward (position + 1))
      | none => (.error .stopIteration, .finished)
  | .fromEnd => readBackward flat (flat.length - 1)
  | .backward position => readBackward flat position
  | .finished => (.error .stopIteration, .finished)

/-! ## Calls -/

inductive Call (Op : Type)
  | insert (i : ℤ) (op : Op)
  | append (op : Op)
  | remove (op : Op)
  | setItem (i : ℤ) (op : Op)
  | delItem (i : ℤ)
  | iter
  | reversed
  | next (iterator : ℕ)
  deriving DecidableEq, Repr

inductive Reply (Op : Type)
  | done
  | item (op : Op)
  | iterator (number : ℕ)
  | raised (error : ListError)
  deriving DecidableEq, Repr

def Reply.ofEdit : Except ListError Unit → Reply Op
  | .ok () => .done
  | .error error => .raised error

def Reply.ofItem : Except ListError Op → Reply Op
  | .ok op => .item op
  | .error error => .raised error

/-- Something indexed with the iterators over it. -/
structure Iterated (Container : Type) where
  container : Container
  cursors : List Cursor

namespace Iterated

variable (equals : Op → Op → Bool)

def editView (world : Iterated (OpsView Label Op)) (edited : Except ListError Unit × OpsView Label Op) :
    Reply Op × Iterated (OpsView Label Op) :=
  (.ofEdit edited.1, { world with container := edited.2 })

def callView (world : Iterated (OpsView Label Op)) : Call Op → Reply Op × Iterated (OpsView Label Op)
  | .insert i op => world.editView (world.container.insert i op)
  | .append op => world.editView (world.container.append op)
  | .remove op => world.editView (world.container.remove equals op)
  | .setItem i op => world.editView (world.container.setItem i op)
  | .delItem i => world.editView (world.container.delItem i)
  | .iter => (.iterator world.cursors.length, { world with cursors := world.cursors ++ [.forward 0] })
  | .reversed => (.iterator world.cursors.length, { world with cursors := world.cursors ++ [.fromEnd] })
  | .next iterator =>
      match world.cursors[iterator]? with
      | none => (.raised .unknownIterator, world)
      | some cursor =>
          let (read, moved) := advance world.container.flat cursor
          (.ofItem read, ⟨world.container.asked, world.cursors.set iterator moved⟩)

def editList (world : Iterated (List Op)) : Except ListError (List Op) → Reply Op × Iterated (List Op)
  | .ok list => (.done, { world with container := list })
  | .error error => (.raised error, world)

/-- The same calls on a plain list; `reversed` reads the length at once. -/
def callList (world : Iterated (List Op)) : Call Op → Reply Op × Iterated (List Op)
  | .insert i op => world.editList (.ok (world.container.insertIdx (insertPosition world.container.length i) op))
  | .append op => world.editList (.ok (world.container ++ [op]))
  | .remove op => world.editList (
      match world.container.findIdx? fun entry => entry = op || equals entry op with
      | none => .error .valueError
      | some position => .ok (world.container.eraseIdx position))
  | .setItem i op => world.editList (
      match itemPosition world.container.length i with
      | none => .error .indexError
      | some position => .ok (world.container.set position op))
  | .delItem i => world.editList (
      match itemPosition world.container.length i with
      | none => .error .indexError
      | some position => .ok (world.container.eraseIdx position))
  | .iter => (.iterator world.cursors.length, { world with cursors := world.cursors ++ [.forward 0] })
  | .reversed =>
      (.iterator world.cursors.length,
        { world with cursors := world.cursors ++ [.backward (world.container.length - 1)] })
  | .next iterator =>
      match world.cursors[iterator]? with
      | none => (.raised .unknownIterator, world)
      | some cursor =>
          let (read, moved) := advance world.container cursor
          (.ofItem read, { world with cursors := world.cursors.set iterator moved })

/-- The replies with the states after the calls. -/
def runView (world : Iterated (OpsView Label Op)) :
    List (Call Op) → List (Reply Op × Iterated (OpsView Label Op))
  | [] => []
  | call :: rest => world.callView equals call :: (world.callView equals call).2.runView rest

def runList (world : Iterated (List Op)) : List (Call Op) → List (Reply Op × Iterated (List Op))
  | [] => []
  | call :: rest => world.callList equals call :: (world.callList equals call).2.runList rest

/-! ## Calls in order -/

/-- No operation is written that is held at another position, and every reverse iterator has
started before an edit. -/
def Orderly (world : Iterated (OpsView Label Op)) : Call Op → Prop
  | .insert _ op => op ∉ RoseTree.leaves world.container.real ∧ Cursor.fromEnd ∉ world.cursors
  | .append op => op ∉ RoseTree.leaves world.container.real ∧ Cursor.fromEnd ∉ world.cursors
  | .remove _ => Cursor.fromEnd ∉ world.cursors
  | .setItem i op =>
      (op ∈ RoseTree.leaves world.container.real →
        (itemPosition (RoseTree.leaves world.container.real).length i).bind
          ((RoseTree.leaves world.container.real)[·]?) = some op) ∧ Cursor.fromEnd ∉ world.cursors
  | .delItem _ => Cursor.fromEnd ∉ world.cursors
  | .iter => True
  | .reversed => True
  | .next _ => True

instance (world : Iterated (OpsView Label Op)) : (call : Call Op) → Decidable (world.Orderly call)
  | .insert _ _ => inferInstanceAs (Decidable (_ ∧ _))
  | .append _ => inferInstanceAs (Decidable (_ ∧ _))
  | .remove _ => inferInstanceAs (Decidable (¬ _))
  | .setItem _ _ => inferInstanceAs (Decidable ((_ → _) ∧ _))
  | .delItem _ => inferInstanceAs (Decidable (¬ _))
  | .iter => isTrue trivial
  | .reversed => isTrue trivial
  | .next _ => isTrue trivial

def RunOrderly (world : Iterated (OpsView Label Op)) : List (Call Op) → Prop
  | [] => True
  | call :: rest => world.Orderly call ∧ (world.callView equals call).2.RunOrderly rest

instance decideRunOrderly (world : Iterated (OpsView Label Op)) :
    (calls : List (Call Op)) → Decidable (world.RunOrderly equals calls)
  | [] => isTrue trivial
  | call :: rest =>
      have := decideRunOrderly (world.callView equals call).2 rest
      inferInstanceAs (Decidable (world.Orderly call ∧ (world.callView equals call).2.RunOrderly equals rest))

end Iterated

/-! ## One edit -/

/-- An edit of the view does what an edit of the flat list does, and leaves the operations that stay in
the lists that held them. -/
structure Refines (view : OpsView Label Op) (list : List Op)
    (edited : Except ListError Unit × OpsView Label Op) (expected : Except ListError (List Op)) : Prop where
  outcome : edited.1 = expected.map fun _ => ()
  leaves : RoseTree.leaves edited.2.real = expected.toOption.getD list
  flat : edited.2.flat = expected.toOption.getD list
  distinct : (expected.toOption.getD list).Nodup
  kept : ∀ path op, (path, op) ∈ holders [] view.real → op ∈ expected.toOption.getD list →
    (path, op) ∈ holders [] edited.2.real

section Edits

variable {view : OpsView Label Op} {list : List Op} (same : RoseTree.leaves view.real = list)
  (cached : view.flat = list) (distinct : list.Nodup)

include same cached distinct

theorem refines_raised (error : ListError) : Refines view list (.error error, view.asked) (.error error) :=
  ⟨rfl, same, cached, distinct, fun _ _ held _ => held⟩

theorem refines_append {op : Op} (fresh : op ∉ list) : Refines view list (view.append op) (.ok (list ++ [op])) := by
  have appended : RoseTree.leaves (view.real ++ [.leaf op]) = list ++ [op] := by simp [same]
  refine ⟨rfl, appended, appended, ?_, fun path other held _ => ?_⟩
  · exact (List.perm_append_singleton op list).nodup_iff.mpr (List.nodup_cons.mpr ⟨fresh, distinct⟩)
  · simp [OpsView.append, held]

/-- Operations put in the place of one in the list that holds it are put there in the flat list. -/
theorem refines_editBeside (cache : Option (List Op)) {front back : List Op} {op : Op}
    (split : list = front ++ op :: back)
    {edit : ℕ → List (RoseTree Label Op) → List (RoseTree Label Op)} {replacement : List Op}
    (replaces : ∀ before after, edit before.length (before ++ .leaf op :: after) =
      before ++ replacement.map .leaf ++ after)
    (stillDistinct : (front ++ replacement ++ back).Nodup) :
    Refines view list (OpsView.editBeside ⟨view.real, cache⟩ op edit) (.ok (front ++ replacement ++ back)) := by
  obtain ⟨path, index, inner, before, after, found, held, edited⟩ :=
    exists_split (show op ∈ RoseTree.leaves view.real by simp [same, split])
  have afterEdit := edited edit replacement replaces
  have names : before.map Prod.snd ++ op :: after.map Prod.snd = front ++ op :: back := by
    have mapped := congrArg (List.map Prod.snd) held
    rw [map_snd_holders, same, split] at mapped
    simpa using mapped.symm
  have absent : op ∉ before.map Prod.snd ∧ op ∉ after.map Prod.snd := by
    rw [split, ← names] at distinct
    exact ⟨fun inside => (List.nodup_append.mp distinct).2.2 op inside op List.mem_cons_self rfl,
      (List.nodup_cons.mp (List.nodup_append.mp distinct).2.1).1⟩
  obtain ⟨sameFront, sameBack⟩ : before.map Prod.snd = front ∧ after.map Prod.snd = back := by
    have cut := (List.append_cons_inj_of_notMem absent.1 absent.2).mp names
    exact ⟨cut.1, cut.2.2⟩
  have leavesAfter : RoseTree.leaves (editAt (edit index) path view.real) = front ++ replacement ++ back := by
    rw [← map_snd_holders [], afterEdit]
    simp [sameFront, sameBack, Function.comp_def]
  simp only [OpsView.editBeside, found]
  refine ⟨rfl, leavesAfter, leavesAfter, stillDistinct, fun other kept isHeld stays => ?_⟩
  rw [held] at isHeld
  rw [afterEdit]
  rcases List.mem_append.mp isHeld with inBefore | later
  · simp [inBefore]
  rcases List.mem_cons.mp later with isOp | inAfter
  · -- An operation still there is one of those put in its place.
    cases isOp
    have placed : op ∈ replacement := by
      have outside : op ∉ front ∧ op ∉ back := by rwa [← sameFront, ← sameBack]
      simpa [Except.toOption, outside] using stays
    simp [placed]
  · simp [inAfter]

omit same cached distinct in
theorem split_at {position : ℕ} {op : Op} (atPosition : list[position]? = some op) :
    list = list.take position ++ op :: list.drop (position + 1) ∧ (list.take position).length = position := by
  obtain ⟨bounded, rfl⟩ := List.getElem?_eq_some_iff.mp atPosition
  exact ⟨by simp, List.length_take_of_le bounded.le⟩

omit same cached distinct in
theorem fresh_insert {front back : List Op} {old new : Op} (split : list = front ++ old :: back)
    (distinct : list.Nodup) (fresh : new ∉ list) : (front ++ [new, old] ++ back).Nodup := by
  have permuted : (front ++ [new, old] ++ back).Perm (new :: list) := by
    rw [split]
    simpa using List.perm_middle
  exact permuted.nodup_iff.mpr (List.nodup_cons.mpr ⟨fresh, distinct⟩)

theorem refines_insert {op : Op} (fresh : op ∉ list) (i : ℤ) :
    Refines view list (view.insert i op) (.ok (list.insertIdx (insertPosition list.length i) op)) := by
  unfold OpsView.insert insertPosition
  simp only [cached]
  have nonnegative : 0 ≤ (if i < 0 then max (i + (list.length : ℤ)) 0 else i) := by split <;> omega
  generalize (if i < 0 then max (i + (list.length : ℤ)) 0 else i) = spot at nonnegative ⊢
  split
  next atEnd =>
    rw [show min spot.toNat list.length = list.length by omega, List.insertIdx_length_self]
    exact refines_append same cached distinct fresh
  next inside =>
    have bounded : spot.toNat < list.length := by omega
    have atSpot := List.getElem?_eq_getElem bounded
    obtain ⟨split, frontLength⟩ := split_at atSpot
    have expected : list.insertIdx spot.toNat op =
        list.take spot.toNat ++ [op, list[spot.toNat]] ++ list.drop (spot.toNat + 1) := by
      have inserted := insertIdx_length_append (list.take spot.toNat) op
        (list[spot.toNat] :: list.drop (spot.toNat + 1))
      rw [← split, frontLength] at inserted
      simpa using inserted
    rw [show min spot.toNat list.length = spot.toNat by omega, expected]
    simp only [atSpot]
    refine refines_editBeside same cached distinct none split (fun before after => ?_)
      (fresh_insert split distinct fresh)
    rw [insertIdx_length_append]
    simp

/-- Deletion of the operation at a position. -/
theorem refines_erase (cache : Option (List Op)) {position : ℕ} {op : Op} (atPosition : list[position]? = some op) :
    Refines view list (OpsView.editBeside ⟨view.real, cache⟩ op fun index list => list.eraseIdx index)
      (.ok (list.eraseIdx position)) := by
  obtain ⟨split, frontLength⟩ := split_at atPosition
  have expected : list.eraseIdx position = list.take position ++ [] ++ list.drop (position + 1) := by
    rw [List.eraseIdx_eq_take_drop_succ, List.append_nil]
  have stillDistinct := distinct.sublist (List.eraseIdx_sublist list position)
  rw [expected] at stillDistinct ⊢
  refine refines_editBeside same cached distinct cache split (fun before after => ?_) stillDistinct
  rw [List.eraseIdx_append_of_length_le (le_refl _)]
  simp

theorem refines_remove (equals : Op → Op → Bool) (op : Op) :
    Refines view list (view.remove equals op)
      (match list.findIdx? fun entry => entry = op || equals entry op with
        | none => .error .valueError
        | some position => .ok (list.eraseIdx position)) := by
  unfold OpsView.remove
  rw [cached, List.find?_eq_bind_findIdx?_getElem?]
  cases found : list.findIdx? fun entry => entry = op || equals entry op with
  | none => exact refines_raised same cached distinct _
  | some position =>
      obtain ⟨bounded, -⟩ := List.findIdx?_eq_some_iff_getElem.mp found
      have atPosition := List.getElem?_eq_getElem bounded
      simp only [Option.bind_some, atPosition]
      exact refines_erase same cached distinct _ atPosition

theorem refines_delItem (i : ℤ) :
    Refines view list (view.delItem i)
      (match itemPosition list.length i with
        | none => .error .indexError
        | some position => .ok (list.eraseIdx position)) := by
  unfold OpsView.delItem
  rw [cached]
  cases found : itemPosition list.length i with
  | none => exact refines_raised same cached distinct _
  | some position =>
      have atPosition := List.getElem?_eq_getElem (itemPosition_lt found)
      simp only [Option.bind_some, atPosition]
      exact refines_erase same cached distinct _ atPosition

theorem refines_setItem {op : Op} {i : ℤ}
    (fresh : op ∈ list → (itemPosition list.length i).bind (list[·]?) = some op) :
    Refines view list (view.setItem i op)
      (match itemPosition list.length i with
        | none => .error .indexError
        | some position => .ok (list.set position op)) := by
  unfold OpsView.setItem
  rw [cached]
  cases found : itemPosition list.length i with
  | none => exact refines_raised same cached distinct _
  | some position =>
      have atPosition := List.getElem?_eq_getElem (itemPosition_lt found)
      simp only [found, Option.bind_some, atPosition] at fresh ⊢
      obtain ⟨split, frontLength⟩ := split_at atPosition
      have expected : list.set position op = list.take position ++ [op] ++ list.drop (position + 1) := by
        rw [List.set_eq_take_append_cons_drop, if_pos (itemPosition_lt found)]
        simp
      have stillDistinct : (list.set position op).Nodup := by
        by_cases already : op ∈ list
        · rw [← Option.some.inj (fresh already), List.set_getElem_self]
          exact distinct
        · exact distinct.set already
      rw [expected] at stillDistinct ⊢
      refine refines_editBeside same cached distinct _ split (fun before after => ?_) stillDistinct
      rw [List.set_append_right _ _ (le_refl _)]
      simp

end Edits

/-! ## Runs -/

namespace Iterated

/-- A reverse iterator that has not started stands for one at the current end. -/
def SameCursor (length : ℕ) (viewCursor listCursor : Cursor) : Prop :=
  viewCursor = listCursor ∨ (viewCursor = .fromEnd ∧ listCursor = .backward (length - 1))

structure Agree (viewWorld : Iterated (OpsView Label Op)) (listWorld : Iterated (List Op)) : Prop where
  leaves : RoseTree.leaves viewWorld.container.real = listWorld.container
  flat : viewWorld.container.flat = listWorld.container
  distinct : listWorld.container.Nodup
  cursors : List.Forall₂ (SameCursor listWorld.container.length) viewWorld.cursors listWorld.cursors

section Step

variable {viewWorld : Iterated (OpsView Label Op)} {listWorld : Iterated (List Op)}
  (agree : Agree viewWorld listWorld)

include agree

/-- Once all iterators have started they do not depend on the length. -/
theorem cursors_started (started : Cursor.fromEnd ∉ viewWorld.cursors) :
    viewWorld.cursors = listWorld.cursors := by
  have cursors := agree.cursors
  generalize viewWorld.cursors = first at cursors started
  generalize listWorld.cursors = second at cursors
  induction cursors with
  | nil => rfl
  | cons same _ inductionHypothesis =>
      rw [List.mem_cons, not_or] at started
      rw [inductionHypothesis started.2, same.resolve_right fun fresh => started.1 fresh.1.symm]

theorem edit_agrees (started : Cursor.fromEnd ∉ viewWorld.cursors)
    {edited : Except ListError Unit × OpsView Label Op} {expected : Except ListError (List Op)}
    (refines : Refines viewWorld.container listWorld.container edited expected) :
    (viewWorld.editView edited).1 = (listWorld.editList expected).1 ∧
      Agree (viewWorld.editView edited).2 (listWorld.editList expected).2 := by
  have sameCursors := cursors_started agree started
  have cursors : ∀ length, List.Forall₂ (SameCursor length) viewWorld.cursors listWorld.cursors := by
    intro length
    rw [sameCursors, List.forall₂_same]
    exact fun _ _ => .inl rfl
  have outcome := refines.outcome
  cases expected with
  | ok new =>
      exact ⟨by simp [editView, editList, outcome, Except.map, Reply.ofEdit],
        refines.leaves, refines.flat, refines.distinct, cursors _⟩
  | error error =>
      exact ⟨by simp [editView, editList, outcome, Except.map, Reply.ofEdit],
        refines.leaves, refines.flat, refines.distinct, cursors _⟩

theorem next_agrees (equals : Op → Op → Bool) (iterator : ℕ) :
    (viewWorld.callView equals (.next iterator)).1 = (listWorld.callList equals (.next iterator)).1 ∧
      Agree (viewWorld.callView equals (.next iterator)).2 (listWorld.callList equals (.next iterator)).2 := by
  obtain ⟨sameLength, pointwise⟩ := List.forall₂_iff_get.mp agree.cursors
  simp only [callView, callList]
  by_cases bounded : iterator < viewWorld.cursors.length
  · have listBounded : iterator < listWorld.cursors.length := sameLength ▸ bounded
    have cursor := pointwise iterator bounded listBounded
    simp only [List.get_eq_getElem] at cursor
    have reads : advance listWorld.container viewWorld.cursors[iterator] =
        advance listWorld.container listWorld.cursors[iterator] := by
      rcases cursor with same | ⟨fresh, atEnd⟩
      · rw [same]
      · rw [fresh, atEnd]
        rfl
    simp only [List.getElem?_eq_getElem bounded, List.getElem?_eq_getElem listBounded, agree.flat, reads]
    refine ⟨trivial, agree.leaves, agree.flat, agree.distinct, ?_⟩
    refine List.forall₂_iff_get.mpr ⟨by simp [sameLength], fun other inside listInside => ?_⟩
    simp only [List.get_eq_getElem, List.getElem_set]
    split
    · exact .inl rfl
    · exact pointwise other (by simpa using inside) (by simpa using listInside)
  · have listUnbounded : ¬ iterator < listWorld.cursors.length := sameLength ▸ bounded
    simp only [List.getElem?_eq_none (not_lt.mp bounded), List.getElem?_eq_none (not_lt.mp listUnbounded)]
    exact ⟨trivial, agree⟩

theorem call_agrees (equals : Op → Op → Bool) {call : Call Op} (orderly : viewWorld.Orderly call) :
    (viewWorld.callView equals call).1 = (listWorld.callList equals call).1 ∧
      Agree (viewWorld.callView equals call).2 (listWorld.callList equals call).2 := by
  have leaves := agree.leaves
  cases call with
  | insert i op =>
      obtain ⟨fresh, started⟩ := orderly
      exact edit_agrees agree started
        (refines_insert leaves agree.flat agree.distinct (leaves ▸ fresh) i)
  | append op =>
      obtain ⟨fresh, started⟩ := orderly
      exact edit_agrees agree started (refines_append leaves agree.flat agree.distinct (leaves ▸ fresh))
  | remove op => exact edit_agrees agree orderly (refines_remove leaves agree.flat agree.distinct equals op)
  | setItem i op =>
      obtain ⟨fresh, started⟩ := orderly
      rw [leaves] at fresh
      exact edit_agrees agree started (refines_setItem leaves agree.flat agree.distinct fresh)
  | delItem i => exact edit_agrees agree orderly (refines_delItem leaves agree.flat agree.distinct i)
  | iter =>
      refine ⟨congrArg Reply.iterator agree.cursors.length_eq, leaves, agree.flat, agree.distinct, ?_⟩
      exact List.rel_append agree.cursors (.cons (.inl rfl) .nil)
  | reversed =>
      refine ⟨congrArg Reply.iterator agree.cursors.length_eq, leaves, agree.flat, agree.distinct, ?_⟩
      exact List.rel_append agree.cursors (.cons (.inr ⟨rfl, rfl⟩) .nil)
  | next iterator => exact next_agrees agree equals iterator

/-- An operation that a call does not take away stays in the list that held it. -/
theorem call_keeps (equals : Op → Op → Bool) {call : Call Op} (orderly : viewWorld.Orderly call)
    {path : List Label} {op : Op} (held : (path, op) ∈ holders [] viewWorld.container.real)
    (stays : op ∈ RoseTree.leaves (viewWorld.callView equals call).2.container.real) :
    (path, op) ∈ holders [] (viewWorld.callView equals call).2.container.real := by
  have leaves := agree.leaves
  have edits : ∀ {edited : Except ListError Unit × OpsView Label Op} {expected : Except ListError (List Op)},
      Refines viewWorld.container listWorld.container edited expected →
      op ∈ RoseTree.leaves edited.2.real → (path, op) ∈ holders [] edited.2.real :=
    fun refines remains => refines.kept path op held (refines.leaves ▸ remains)
  cases call with
  | insert i other => exact edits (refines_insert leaves agree.flat agree.distinct (leaves ▸ orderly.1) i) stays
  | append other => exact edits (refines_append leaves agree.flat agree.distinct (leaves ▸ orderly.1)) stays
  | remove other => exact edits (refines_remove leaves agree.flat agree.distinct equals other) stays
  | setItem i other =>
      have fresh := orderly.1
      rw [leaves] at fresh
      exact edits (refines_setItem leaves agree.flat agree.distinct fresh) stays
  | delItem i => exact edits (refines_delItem leaves agree.flat agree.distinct i) stays
  | iter => exact held
  | reversed => exact held
  | next iterator =>
      simp only [callView] at stays ⊢
      split <;> exact held

end Step

theorem runView_agrees (equals : Op → Op → Bool) {calls : List (Call Op)}
    {viewWorld : Iterated (OpsView Label Op)} {listWorld : Iterated (List Op)}
    (agree : Agree viewWorld listWorld) (orderly : viewWorld.RunOrderly equals calls) :
    List.Forall₂ (fun viewed listed => viewed.1 = listed.1 ∧
        RoseTree.leaves viewed.2.container.real = listed.2.container)
      (viewWorld.runView equals calls) (listWorld.runList equals calls) := by
  induction calls generalizing viewWorld listWorld with
  | nil => exact .nil
  | cons call rest inductionHypothesis =>
      obtain ⟨replies, next⟩ := call_agrees agree equals orderly.1
      exact .cons ⟨replies, next.leaves⟩ (inductionHypothesis next orderly.2)

theorem runView_keeps (equals : Op → Op → Bool) {calls : List (Call Op)}
    {viewWorld : Iterated (OpsView Label Op)} {listWorld : Iterated (List Op)}
    (agree : Agree viewWorld listWorld) (orderly : viewWorld.RunOrderly equals calls) {path : List Label} {op : Op}
    (held : (path, op) ∈ holders [] viewWorld.container.real)
    (stays : ∀ step ∈ viewWorld.runView equals calls, op ∈ RoseTree.leaves step.2.container.real) :
    ∀ step ∈ viewWorld.runView equals calls, (path, op) ∈ holders [] step.2.container.real := by
  induction calls generalizing viewWorld listWorld with
  | nil => exact fun _ inside => by cases inside
  | cons call rest inductionHypothesis =>
      obtain ⟨-, next⟩ := call_agrees agree equals orderly.1
      have here := call_keeps agree equals orderly.1 held (stays _ List.mem_cons_self)
      intro step inside
      rcases List.mem_cons.mp inside with rfl | later
      · exact here
      · exact inductionHypothesis next orderly.2 here
          (fun other isLater => stays other (List.mem_cons_of_mem _ isLater)) step later

/-- A fresh view of a nested list in which every operation occurs once, without iterators. -/
def ofTree (tree : List (RoseTree Label Op)) : Iterated (OpsView Label Op) := ⟨⟨tree, none⟩, []⟩

/-- Calls in order through a view return and leave in the flat order what they do on a plain list, and
every operation stays in its list as long as it is not taken away. -/
theorem opsView_refines_list (equals : Op → Op → Bool) {tree : List (RoseTree Label Op)}
    (distinct : (RoseTree.leaves tree).Nodup) {calls : List (Call Op)}
    (orderly : (ofTree tree).RunOrderly equals calls) :
    List.Forall₂ (fun viewed listed => viewed.1 = listed.1 ∧
        RoseTree.leaves viewed.2.container.real = listed.2.container)
      ((ofTree tree).runView equals calls) (runList equals ⟨RoseTree.leaves tree, []⟩ calls) ∧
    ∀ path op, (path, op) ∈ holders [] tree →
      (∀ step ∈ (ofTree tree).runView equals calls, op ∈ RoseTree.leaves step.2.container.real) →
      ∀ step ∈ (ofTree tree).runView equals calls, (path, op) ∈ holders [] step.2.container.real := by
  have agree : Agree (ofTree tree) ⟨RoseTree.leaves tree, []⟩ := ⟨rfl, rfl, distinct, .nil⟩
  exact ⟨runView_agrees equals agree orderly,
    fun path op held stays => runView_keeps equals agree orderly held stays⟩

/-- `a`, a loop with `b` and `c`, and `d`. -/
def loopOfTwo : List (RoseTree String String) := [.leaf "a", .node "loop" [.leaf "b", .leaf "c"], .leaf "d"]

def removeWhileIterating : List (Call String) :=
  [.iter, .next 0, .next 0, .remove "b", .next 0, .insert 1 "e", .reversed, .next 1, .setItem (-1) "f", .next 1]

theorem opsView_refines_list_loopOfTwo :
    List.Forall₂ (fun viewed listed => viewed.1 = listed.1 ∧
        RoseTree.leaves viewed.2.container.real = listed.2.container)
      ((ofTree loopOfTwo).runView (· == ·) removeWhileIterating)
      (runList (· == ·) ⟨["a", "b", "c", "d"], []⟩ removeWhileIterating) :=
  (opsView_refines_list (· == ·) (by decide) (by decide)).1

/-- Two operations exchanged by assignment are both written to the first position, and a reverse
iterator that starts after an append sees what was appended. -/
theorem opsView_differs :
    (((ofTree loopOfTwo).runView (· == ·) [.setItem 0 "d", .setItem 3 "a"]).map fun step =>
        RoseTree.leaves step.2.container.real) = [["d", "b", "c", "d"], ["a", "b", "c", "d"]] ∧
      ((runList (· == ·) ⟨["a", "b", "c", "d"], []⟩ [.setItem 0 "d", .setItem 3 "a"]).map fun step =>
        step.2.container) = [["d", "b", "c", "d"], ["d", "b", "c", "a"]] ∧
      (((ofTree loopOfTwo).runView (· == ·) [.reversed, .append "e", .next 0]).map Prod.fst) =
        [.iterator 0, .done, .item "e"] ∧
      ((runList (· == ·) ⟨["a", "b", "c", "d"], []⟩ [.reversed, .append "e", .next 0]).map Prod.fst) =
        [.iterator 0, .done, .item "d"] := by
  decide

end Iterated

end TorchSpyre.LoopNode
