import Conform.Schema.Components
/-!
# Assembling components

Components are added one by one, and each gets the next free handle of its sort. A group takes
members that are there already and belong to no group, so that the groups form a forest.
-/

namespace Conform.Components

/-- Adds a local element declaration. -/
def addElement (c : Components) (d : Declaration) : ElementId × Components :=
  (⟨c.elements.size⟩, { c with elements := c.elements.push d })

/-- Adds a global element declaration. -/
def addGlobalElement (c : Components) (d : Declaration) : ElementId × Components :=
  let (id, c) := c.addElement { d with isGlobal := true }
  (id, { c with elementNames := c.elementNames.insert d.name id })

/-- Adds a wildcard. -/
def addWildcard (c : Components) (w : Wildcard) : WildcardId × Components :=
  (⟨c.wildcards.size⟩, { c with wildcards := c.wildcards.push w })

/-- Adds a type that cannot be found by name. -/
def addLocalType (c : Components) (t : TypeDefinition) : TypeId × Components :=
  (⟨c.types.size⟩, { c with types := c.types.push t })

/-- Adds a type, to be found by its name if it has one. -/
def addType (c : Components) (t : TypeDefinition) : TypeId × Components :=
  let (id, c) := c.addLocalType t
  match t.name? with
  | some n => (id, { c with typeNames := c.typeNames.insert n id })
  | none => (id, c)

/-- The handle of a builtin type, which is added at its first use. -/
def builtin (c : Components) (b : Builtin) : TypeId × Components :=
  match c.typeNamed? b.name with
  | some id => (id, c)
  | none => c.addType (.simple ⟨some b.name, b⟩)

/-- Adds an identity constraint. -/
def addIdentity (c : Components) (i : Constraint) : IdentityId × Components :=
  let id : IdentityId := ⟨c.identities.size⟩
  (id, { c with
    identities := c.identities.push i
    identityNames := c.identityNames.insert i.name id })

/-- Fails if there is no component at a handle. -/
def checkMember (c : Components) (m : Member) : Except Failure Unit :=
  if c.hasMember m then .ok () else .error (.misuse (.dangling m.text))

/-- Fails if a member is missing, repeated or already in a group. -/
def checkMembers (c : Components) (id : GroupId) (seen : List Member) :
    List Member → Except Failure Unit
  | [] => .ok ()
  | m :: rest => do
    c.checkMember m
    if m ∈ seen then throw (.misuse (.repeatedMember m id))
    match c.parent? m with
    | some owner => throw (.misuse (.ownedMember m owner))
    | none => c.checkMembers id (m :: seen) rest

/-- Records the group that a member belongs to. -/
def own (c : Components) (id : GroupId) (m : Member) : Components :=
  match m with
  | .element e =>
    { c with elements := c.elements.modify e.index fun d => { d with parent := some id } }
  | .wildcard w =>
    { c with wildcards := c.wildcards.modify w.index fun d => { d with parent := some id } }
  | .group g => { c with groups := c.groups.modify g.index fun d => { d with parent := some id } }

/-- Takes members into a new group, which comes last. All of them are checked before the first is
changed. A failure leaves what is changed up to it. -/
def takeGroup (g : Group) (members : List Member) : EStateM Failure Components GroupId := do
  let c ← get
  let id : GroupId := ⟨c.groups.size⟩
  match c.checkMembers id [] members with
  | .error failure => throw failure
  | .ok () =>
    members.forM fun m => modify fun c => c.own id m
    modify fun c => { c with groups := c.groups.push { g with members, parent := none } }
    return id

/-- Adds a group with its members. -/
def addGroup (c : Components) (g : Group) (members : List Member) :
    Except Failure (GroupId × Components) :=
  match (takeGroup g members).run c with
  | .ok id c => .ok (id, c)
  | .error failure _ => .error failure

end Conform.Components
