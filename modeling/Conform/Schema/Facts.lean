import Conform.Occurs.Fold
import Conform.Schema.Order
/-!
# Facts about groups

What is worked out about every group once, from the groups nested in it: whether it can be empty,
how many elements its content has, and which leaves stand in it.
-/

namespace Conform

/-- Facts about a group. -/
structure GroupFacts where
  /-- How many elements the content has. -/
  size : Occurs
  isEmptiable : Bool
  /-- The elements and wildcards in the group, nested groups dissolved. -/
  leaves : List Member
deriving DecidableEq, Repr

/-- Nothing is known: the facts about a group without members. -/
instance : Inhabited GroupFacts := ⟨⟨Occurs.never, true, []⟩⟩

namespace GroupFacts

/-- The least of some numbers, zero if there is none. -/
def least (ns : List UInt32) : UInt32 := ns.min?.getD 0

/-- The greatest of some numbers, zero if there is none. -/
def greatest (ns : List UInt32) : UInt32 := ns.max?.getD 0

/-- The least number of elements, from the sizes of the members that may occur. -/
def lowerSize (compositor : Compositor) (occurs : Occurs) (items : List Occurs) : UInt32 :=
  match compositor with
  | .choice => satMul occurs.min (least (items.map (·.min)))
  | .all => greatest (items.map (·.min))
  | .sequence =>
    match items.filter fun o => 0 < o.min with
    | [] => 0
    | [one] => satMul occurs.min one.min
    | _ => occurs.min

/-- The repetitions of the group times the greatest size of a member. -/
def widest (repetitions : UInt32) (items : List Occurs) : Option UInt32 :=
  if items.any fun o => o.max.isNone then none
  else some (satMul repetitions (greatest (items.filterMap (·.max))))

/-- The greatest number of elements, from the sizes of the members that may occur. -/
def upperSize (compositor : Compositor) (occurs : Occurs) (items : List Occurs) : Option UInt32 :=
  match occurs.max with
  | none => none
  | some repetitions =>
    let required := items.filter fun o => 0 < o.min
    match compositor, required with
    | .choice, _ => widest repetitions items
    | _, [] => widest repetitions items
    | _, [one] => one.max.map (satMul repetitions ·)
    | .sequence, _ => some repetitions
    | .all, _ => (required.filterMap (·.max)).min?

/-- How many elements the content has, from the sizes of all members. -/
def sizeOf (g : Group) (sizes : List Occurs) : Occurs :=
  let items := sizes.filter fun o => o.max ≠ some 0
  if g.members.isEmpty || items.isEmpty then Occurs.never
  else ⟨if g.occurs.min = 0 then 0 else lowerSize g.compositor g.occurs items,
    if g.occurs.max = some 0 then some 0 else upperSize g.compositor g.occurs items⟩

/-- The facts about a group, from what is known about nested groups. -/
def ofGroup (c : Components) (known : GroupId → GroupFacts) (g : Group) : GroupFacts where
  size := sizeOf g (g.members.map fun
    | .group id => (known id).size
    | m => c.occurs m)
  isEmptiable :=
    let canBeEmpty : Member → Bool := fun
      | .group id => (known id).isEmptiable
      | m => (c.occurs m).isEmptiable
    g.occurs.isEmptiable || g.members.isEmpty ||
      match g.compositor with
      | .choice => g.members.any canBeEmpty
      | .sequence | .all => g.members.all canBeEmpty
  leaves := g.members.flatMap fun
    | .group id => if (c.group id).occurs.isEmpty then [] else (known id).leaves
    | m => [m]

end GroupFacts

namespace Components

/-- The facts about all groups, worked out in the given order. -/
def facts (c : Components) (order : List GroupId) : Array GroupFacts :=
  order.foldl
    (fun facts id =>
      facts.setIfInBounds id.index
        (GroupFacts.ofGroup c (fun g => facts[g.index]?.getD default) (c.group id)))
    (Array.replicate c.groups.size default)

/-- Bounds folded with those of the groups around, the innermost first. In a choice with
alternatives a particle need not occur. -/
def foldFrom (c : Components) : Nat → Option GroupId → Occurs → Occurs
  | 0, _, o => o
  | _, none, o => o
  | fuel + 1, some id, o =>
    let g := c.group id
    let o := if g.compositor = .choice && 1 < g.members.length then { o with min := 0 } else o
    c.foldFrom fuel g.parent (o.multiply g.occurs)

/-- The bounds of a particle folded with those of all groups around it. -/
def foldOccurs (c : Components) (m : Member) : Occurs :=
  c.foldFrom (c.groups.size + 1) (c.parent? m) (c.occurs m)

/-- The folded bounds of all particles that belong to a group. -/
def foldedOccurs (c : Components) : Listing Member Occurs :=
  Listing.ofList
    ((c.particles.filter fun m => (c.parent? m).isSome).map fun m => (m, c.foldOccurs m))

end Components

end Conform
