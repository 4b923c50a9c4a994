import Conform.Schema.Basic
/-!
# Building a schema

Components become a schema once they fit together: every handle has its component, bounds are in
order, groups do not contain themselves, `all` groups stand where version 1.0 wants them, and every
keyref refers to a key or a unique with as many fields.
-/

namespace Conform.Components

/-- Fails if there is no type at a handle. -/
def checkType (c : Components) (id : TypeId) : Except Failure Unit :=
  if id.index < c.types.size then .ok () else .error (.misuse (.dangling id.text))

/-- Fails if there is no identity constraint at a handle. -/
def checkIdentity (c : Components) (id : IdentityId) : Except Failure Unit :=
  if id.index < c.identities.size then .ok () else .error (.misuse (.dangling id.text))

/-- Fails if a declaration has a handle without a component. -/
def checkDeclaration (c : Components) (d : Declaration) : Except Failure Unit := do
  c.checkType d.type
  d.alternatives.forM fun a => c.checkType a.type
  d.identities.forM c.checkIdentity

/-- Fails if the content of a type has a handle without a component. -/
def checkContent (c : Components) : Content → Except Failure Unit
  | .empty => .ok ()
  | .simple id => c.checkType id
  | .elementOnly id | .mixed id =>
    if c.hasMember (.group id) then .ok () else .error (.misuse (.dangling id.text))

/-- Fails if a type has a handle without a component. -/
def checkTypeDefinition (c : Components) : TypeDefinition → Except Failure Unit
  | .simple _ => .ok ()
  | .complex t => do
    c.checkContent t.content
    t.attributes.values.forM fun a => c.checkType a.type

/-- Fails if a member of a group has no component. -/
def checkGroupMembers (c : Components) (g : Group) : Except Failure Unit :=
  g.members.forM fun m =>
    if c.hasMember m then .ok () else .error (.misuse (.dangling m.text))

/-- Fails at the first handle without a component. -/
def checkHandles (c : Components) : Except Failure Unit := do
  c.elements.toList.forM c.checkDeclaration
  c.types.toList.forM c.checkTypeDefinition
  c.groups.toList.forM c.checkGroupMembers

/-- The name of a particle in a failure. -/
def particleName (c : Components) : Member → String
  | .element id => (c.element id).name.text
  | .wildcard id => id.text
  | .group id => (c.group id).label id

/-- Fails at the first particle whose maximum is under its minimum. -/
def checkOccurs (c : Components) : Except Failure Unit :=
  c.particles.forM fun m =>
    if (c.occurs m).isOrdered then .ok ()
    else .error (.schema (.occursOrder (c.occurs m)) (some (c.particleName m)))

/-- What version 1.0 does not allow of a member of an `all` group. -/
def allMemberFault? (c : Components) : Member → Option SchemaFault
  | .element id =>
    if (c.element id).occurs.max.any (· ≤ 1) then none else some .allElementOccurs
  | _ => some .allMember

/-- What version 1.0 does not allow of a group. -/
def allGroupFault? (c : Components) (g : Group) : Option SchemaFault :=
  if g.compositor ≠ .all then none
  else if g.parent.isSome then some .allNotOnTop
  else if 1 < g.occurs.min || g.occurs.max ≠ some 1 then some .allOccurs
  else g.members.findSome? c.allMemberFault?

/-- Fails at the first group that version 1.0 does not allow. -/
def checkAllGroups (c : Components) : Except Failure Unit :=
  if c.version = .v11 then .ok ()
  else (List.range c.groups.size).forM fun i =>
    let id : GroupId := ⟨i⟩
    match c.allGroupFault? (c.group id) with
    | some fault => .error (.schema fault (some ((c.group id).label id)))
    | none => .ok ()

/-- The constraint that a keyref refers to; nothing for the other kinds. -/
def referred (c : Components) (i : Constraint) : Except Failure (Option IdentityId) :=
  match i.kind with
  | .keyref name =>
    match c.identityNamed? name with
    | none => .error (.schema (.keyNotFound name) (some i.text))
    | some id =>
      let key := c.identity id
      if key.isKeyref then .error (.schema (.notKey key.text) (some i.text))
      else if key.fields.length ≠ i.fields.length then
        .error (.schema (.fieldCount key.text) (some i.text))
      else .ok (some id)
  | _ => .ok none

/-- The identity constraints with their references. -/
def resolveReferences (c : Components) :
    Except Failure (List (Constraint × Option IdentityId)) :=
  c.identities.toList.mapM fun i => do return (i, ← c.referred i)

/-- The schema that the components make up. -/
def build (c : Components) : Except Failure Schema := do
  c.checkHandles
  c.checkOccurs
  let order ← c.groupOrder
  c.checkAllGroups
  let referring ← c.resolveReferences
  let rules ← referring.mapM fun (i, refers) => i.compile refers
  return { c with
    groupFacts := c.facts order
    folded := c.foldedOccurs
    rules := rules.toArray }

end Conform.Components
