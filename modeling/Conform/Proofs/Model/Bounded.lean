import Conform.Model.Attribution
/-!
# Walks under another bound on documents

A walk asks a schema for its groups, their facts and the bound on the depth of models, and not for
the bound on documents. So it takes the same steps whatever that bound is.
-/

namespace Conform

/-- The schema with another bound on the depth of documents. -/
def Schema.bounded (s : Schema) (depth : Nat) : Schema :=
  { s with limits := { s.limits with maxMarkupDepth := depth } }

variable {s : Schema} {depth : Nat}

namespace Walk

theorem closeItem_bounded : ∀ (outer : List Frame) (m : Member) (w : Walk),
    closeItem (s.bounded depth) outer m w = closeItem s outer m w
  | [], m, w => by
    unfold closeItem
    rfl
  | f :: outer, m, w => by
    unfold closeItem
    simp only [closeItem_bounded outer]
    rfl

theorem closeGroup_bounded (w : Walk) : w.closeGroup (s.bounded depth) = w.closeGroup s := by
  unfold closeGroup
  simp only [closeItem_bounded]

end Walk

namespace Passage

theorem step_bounded (p : Passage) : p.step (s.bounded depth) = p.step s := by
  unfold step leaveEnd leaveUnmatched leaveAll
  simp only [Walk.closeGroup_bounded]
  rfl

theorem run_bounded : ∀ (fuel : Nat) (p : Passage), run (s.bounded depth) fuel p = run s fuel p
  | 0, _ => rfl
  | fuel + 1, p => by
    unfold run
    simp only [step_bounded, run_bounded fuel]

end Passage

namespace Walk

theorem moveOn_bounded (w : Walk) (m : Member) :
    w.moveOn (s.bounded depth) m = w.moveOn s m := by
  unfold moveOn closeLeaf
  simp only [closeItem_bounded, Passage.run_bounded]
  rfl

theorem advance_bounded (w : Walk) (matched : Bool) :
    w.advance (s.bounded depth) matched = w.advance s matched := by
  unfold advance
  simp only [moveOn_bounded]
  rfl

theorem stopFrom_bounded : ∀ (fuel : Nat) (violations : List Violation) (w : Walk),
    w.stopFrom (s.bounded depth) fuel violations = w.stopFrom s fuel violations
  | 0, _, _ => rfl
  | fuel + 1, _, w => by
    unfold stopFrom
    simp only [advance_bounded, stopFrom_bounded fuel]

theorem seekFirst_bounded : ∀ (fuel : Nat) (w : Walk),
    w.seekFirst (s.bounded depth) fuel = w.seekFirst s fuel
  | 0, _ => rfl
  | fuel + 1, w => by
    unfold seekFirst
    simp only [seekFirst_bounded fuel]
    rfl

theorem start_bounded (root : GroupId) (v : Version) :
    Walk.start (s.bounded depth) root v = Walk.start s root v := by
  unfold start restart
  simp only [seekFirst_bounded]
  rfl

end Walk

namespace Matching

theorem attributeFrom_bounded (index : Nat) (name : QName) : ∀ (fuel : Nat) (m : Matching),
    attributeFrom (s.bounded depth) index name fuel m = attributeFrom s index name fuel m
  | 0, _ => rfl
  | fuel + 1, m => by
    unfold attributeFrom
    simp only [Walk.advance_bounded, attributeFrom_bounded index name fuel]
    rfl

theorem children_bounded : ∀ (names : List QName) (index : Nat) (m : Matching),
    children (s.bounded depth) index m names = children s index m names
  | [], _, m => by
    unfold children finish Walk.stop
    simp only [Walk.stopFrom_bounded]
    rfl
  | _ :: rest, _, m => by
    unfold children child
    simp only [attributeFrom_bounded, children_bounded rest]
    rfl

end Matching

namespace Schema

theorem attribution_bounded (root : GroupId) (names : List QName) :
    (s.bounded depth).attribution root names = s.attribution root names := by
  unfold attribution Matching.start
  simp only [Walk.start_bounded, Matching.children_bounded]
  rfl

theorem looseAttribution_bounded (root : GroupId) (names : List QName) :
    (s.bounded depth).looseAttribution root names = s.looseAttribution root names := by
  unfold looseAttribution
  simp only [Walk.start_bounded]
  rfl

end Schema

end Conform
