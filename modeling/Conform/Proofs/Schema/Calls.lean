import Conform.Proofs.Schema.Handles
import Conform.Proofs.Schema.Sample
import Mathlib.Logic.Relation
/-!
# Calls of a builder

Components are assembled by calls, some of which may fail. After any calls the groups form a forest
in which a component has a parent just if it is a member: a call that fails leaves everything as it
was, and what it is called with belongs to no group yet. So the groups always have an order, and a
build never fails because of a circle.
-/

namespace Conform

/-! ## Calls -/

/-- A call that adds components or sets what is not a component. -/
inductive Call where
  | limits (l : Limits)
  | version (v : Version)
  | element (d : Declaration)
  | globalElement (d : Declaration)
  | wildcard (w : Wildcard)
  | group (g : Group) (members : List Member)
  | localType (t : TypeDefinition)
  | type (t : TypeDefinition)
  | builtin (b : Builtin)
  | identity (i : Constraint)

namespace Call

/-- What a call does to the components. -/
def perform : Call → EStateM Failure Components Unit
  | limits l => modify fun c => { c with limits := l }
  | version v => modify fun c => { c with version := v }
  | element d => modify fun c => (c.addElement d).2
  | globalElement d => modify fun c => (c.addGlobalElement d).2
  | wildcard w => modify fun c => (c.addWildcard w).2
  | group g members => do let _ ← Components.takeGroup g members
  | localType t => modify fun c => (c.addLocalType t).2
  | type t => modify fun c => (c.addType t).2
  | builtin b => modify fun c => (c.builtin b).2
  | identity i => modify fun c => (c.addIdentity i).2

/-- The components behind a call, whether it fails or not. -/
def state (call : Call) (c : Components) : Components :=
  match call.perform.run c with
  | .ok () c => c
  | .error _ c => c

/-- The components after calls on a new builder. -/
def after (calls : List Call) : Components :=
  calls.foldl (fun c call => call.state c) (Components.empty .v10 .standard)

/-- Declarations and wildcards come from their constructors, which give them no parent. -/
def IsFresh : Call → Prop
  | element d => d.parent = none
  | globalElement d => d.parent = none
  | wildcard w => w.parent = none
  | _ => True

instance : DecidablePred IsFresh
  | element d => inferInstanceAs (Decidable (d.parent = none))
  | globalElement d => inferInstanceAs (Decidable (d.parent = none))
  | wildcard w => inferInstanceAs (Decidable (w.parent = none))
  | limits _ | version _ | group .. | localType _ | type _ | builtin _ | identity _ =>
    inferInstanceAs (Decidable True)

end Call

namespace Components

variable {c c' : Components}

/-- A new group is there, or it changes nothing. -/
theorem state_group (g : Group) (members : List Member) (c : Components) :
    (Call.group g members).state c =
      match c.addGroup g members with
      | .ok (_, c') => c'
      | .error _ => c := by
  have hrun := run_takeGroup c g members
  simp only [EStateM.run] at hrun
  simp only [Call.state, Call.perform, addGroup, EStateM.run, bind, EStateM.bind, hrun]
  cases c.checkMembers ⟨c.groups.size⟩ [] members with
  | error failure => rfl
  | ok => rfl

theorem Assembled.state (h : c.Assembled) (call : Call) : (call.state c).Assembled := by
  cases call with
  | limits l => exact h.limits l
  | version v => exact h.version v
  | element d => exact h.element d
  | globalElement d => exact h.globalElement d
  | wildcard w => exact h.wildcard w
  | localType t => exact h.localType t
  | type t => exact h.type t
  | builtin b => exact h.builtin b
  | identity i => exact h.identity i
  | group g members =>
      rw [state_group]
      cases hadd : c.addGroup g members with
      | error failure => exact h
      | ok r => exact h.group g members hadd

/-! ## Parents -/

/-- What has a parent is a member of it. -/
structure Owned (c : Components) : Prop where
  mem : ∀ {m g}, c.parent? m = some g → m ∈ (c.group g).members

/-- A change that leaves all groups and gives no parents. -/
theorem Owned.mono (h : c.Owned) (hgroups : c'.groups = c.groups)
    (hparent : ∀ {m g}, c'.parent? m = some g → c.parent? m = some g) : c'.Owned where
  mem {m g} hm := by
    have hgroup : c'.group g = c.group g := by rw [group, group, hgroups]
    exact hgroup ▸ h.mem (hparent hm)

/-- A change that touches no particle. -/
theorem Owned.congr (h : c.Owned) (helements : c'.elements = c.elements)
    (hwildcards : c'.wildcards = c.wildcards) (hgroups : c'.groups = c.groups) : c'.Owned := by
  refine h.mono hgroups fun {m g} hm => ?_
  cases m <;> simpa only [parent?, element, wildcard, group, helements, hwildcards, hgroups] using hm

theorem Owned.addElement (h : c.Owned) {d : Declaration} (hd : d.parent = none) :
    (c.addElement d).2.Owned := by
  refine h.mono rfl fun {m g} hm => ?_
  cases m with
  | wildcard w => exact hm
  | group x => exact hm
  | element e =>
      simp only [Components.addElement, parent?, element, Array.getElem?_push] at hm ⊢
      split at hm
      · rw [Option.getD_some, hd] at hm
        cases hm
      · exact hm

theorem Owned.addWildcard (h : c.Owned) {w : Wildcard} (hw : w.parent = none) :
    (c.addWildcard w).2.Owned := by
  refine h.mono rfl fun {m g} hm => ?_
  cases m with
  | element e => exact hm
  | group x => exact hm
  | wildcard x =>
      simp only [Components.addWildcard, parent?, wildcard, Array.getElem?_push] at hm ⊢
      split at hm
      · rw [Option.getD_some, hw] at hm
        cases hm
      · exact hm

/-- A new group has no parent, and it is the parent of its members alone. -/
theorem parent?_gather {g : Group} {members : List Member} {m : Member} {x : GroupId}
    (hthere : ∀ m ∈ members, c.hasMember m = true)
    (h : (c.gather g members).parent? m = some x) :
    m ∈ members ∧ x = ⟨c.groups.size⟩ ∨ c.parent? m = some x := by
  obtain ⟨-, hsize, -, hparent⟩ := foldl_own (g := ⟨c.groups.size⟩) (c := c) hthere
  have howned : (members.foldl (fun d m => d.own ⟨c.groups.size⟩ m) c).parent? m = some x := by
    cases m with
    | element e => exact h
    | wildcard w => exact h
    | group y =>
        simp only [gather, parent?, group, Array.getElem?_push] at h ⊢
        split at h
        · cases h
        · exact h
  rw [hparent] at howned
  split at howned
  · rename_i hm
    exact .inl ⟨hm, (Option.some.inj howned).symm⟩
  · exact .inr howned

/-- A new group becomes the parent of its members, and no other parent changes. -/
theorem mem_of_parent?_addGroup {g : Group} {members : List Member} {id : GroupId} {m : Member}
    (hadd : c.addGroup g members = .ok (id, c'))
    (h : ∀ {x}, c.parent? m = some x → m ∈ (c.group x).members) {x : GroupId}
    (hm : c'.parent? m = some x) : m ∈ (c'.group x).members := by
  obtain ⟨hfree, -, rfl, -, hmembers, -⟩ := addGroup_ok hadd
  obtain ⟨-, -, rfl⟩ := addGroup_eq_ok hadd
  rw [hmembers]
  rcases parent?_gather (fun m hm => (hfree m hm).1) hm with ⟨hin, rfl⟩ | hold
  · rwa [if_pos rfl]
  · rw [if_neg]
    · exact h hold
    · -- the handle is new, so there was no group at it
      rintro rfl
      have hin := index_lt_size (h hold)
      exact absurd hin (Nat.lt_irrefl _)

theorem Owned.addGroup (h : c.Owned) {g : Group} {members : List Member} {id : GroupId}
    (hadd : c.addGroup g members = .ok (id, c')) : c'.Owned :=
  ⟨mem_of_parent?_addGroup hadd h.mem⟩

theorem Owned.addType (h : c.Owned) (t : TypeDefinition) : (c.addType t).2.Owned := by
  refine h.congr ?_ ?_ ?_ <;> simp only [Components.addType] <;> split <;> rfl

theorem Owned.state (h : c.Owned) {call : Call} (hfresh : call.IsFresh) :
    (call.state c).Owned := by
  cases call with
  | limits | version | localType | identity => exact h.congr rfl rfl rfl
  | element d => exact h.addElement hfresh
  | globalElement d =>
      have hadded := h.addElement (d := { d with isGlobal := true }) hfresh
      exact hadded.congr rfl rfl rfl
  | wildcard w => exact h.addWildcard hfresh
  | type t => exact h.addType t
  | builtin b =>
      show (c.builtin b).2.Owned
      unfold Components.builtin
      split
      · exact h
      · exact h.addType _
  | group g members =>
      rw [state_group]
      cases hadd : c.addGroup g members with
      | error failure => exact h
      | ok r => exact h.addGroup hadd

/-- What every call keeps holds after all calls. -/
theorem after_induction {P : Components → Prop} (hstart : P (empty .v10 .standard))
    (hstep : ∀ {call : Call} {c : Components}, call.IsFresh → P c → P (call.state c))
    {calls : List Call} (hfresh : ∀ call ∈ calls, call.IsFresh) : P (Call.after calls) := by
  have hrun : ∀ (calls : List Call) (c : Components), (∀ call ∈ calls, call.IsFresh) → P c →
      P (calls.foldl (fun c call => call.state c) c) := by
    intro calls
    induction calls with
    | nil => exact fun _ _ hc => hc
    | cons call rest ih =>
        intro c hfresh hc
        exact ih _ (fun call' h => hfresh call' (List.mem_cons_of_mem _ h))
          (hstep (hfresh call List.mem_cons_self) hc)
  exact hrun calls _ hfresh hstart

theorem assembled_after {calls : List Call} (hfresh : ∀ call ∈ calls, call.IsFresh) :
    (Call.after calls).Assembled :=
  after_induction (.empty _ _) (fun _ h => h.state _) hfresh

theorem owned_after {calls : List Call} (hfresh : ∀ call ∈ calls, call.IsFresh) :
    (Call.after calls).Owned :=
  after_induction ⟨fun {m _} h => by cases m <;> cases h⟩ (fun hcall h => h.state hcall) hfresh

/-! ## The order of groups -/

/-- A group is a member of another one. -/
def IsNestedIn (c : Components) (sub g : GroupId) : Prop := .group sub ∈ (c.group g).members

theorem Forest.index_lt_of_transGen (h : c.Forest) {sub g : GroupId}
    (hnested : Relation.TransGen c.IsNestedIn sub g) : sub.index < g.index := by
  induction hnested with
  | single hin => exact h.index_lt hin
  | tail _ hin ih => exact Nat.lt_trans ih (h.index_lt hin)

theorem foldlM_isOk {α β : Type} {f : β → α → Except Failure β} : ∀ {xs : List α},
    (∀ x ∈ xs, ∀ b, ∃ b', f b x = .ok b') → ∀ b, ∃ b', xs.foldlM f b = .ok b'
  | [], _, b => ⟨b, rfl⟩
  | x :: rest, h, b => by
    obtain ⟨next, hnext⟩ := h x List.mem_cons_self b
    obtain ⟨last, hlast⟩ := foldlM_isOk (fun y hy => h y (List.mem_cons_of_mem _ hy)) next
    refine ⟨last, ?_⟩
    rw [List.foldlM_cons, hnext]
    exact hlast

/-- In a forest a visit comes to its end: nested groups have lesser handles than the groups of the
trail, so none of them is met again, and there is fuel for each. -/
theorem Forest.visit_isOk (h : c.Forest) : ∀ {fuel : Nat} {trail : List GroupId} {id : GroupId},
    id.index < fuel → (∀ g ∈ trail, id.index < g.index) → ∀ finished,
      ∃ finished', c.visit fuel trail id finished = .ok finished'
  | fuel + 1, trail, id, hfuel, htrail, finished => by
    unfold visit
    by_cases hdone : id ∈ finished
    · exact ⟨finished, if_pos hdone⟩
    · rw [if_neg hdone, if_neg fun hmem => absurd (htrail id hmem) (Nat.lt_irrefl _)]
      have hnested : ∀ sub ∈ c.nested id, ∀ finished,
          ∃ finished', c.visit fuel (trail ++ [id]) sub finished = .ok finished' := by
        intro sub hsub
        obtain ⟨m, hm, hgroup⟩ := List.mem_filterMap.1 hsub
        cases m with
        | element e => cases hgroup
        | wildcard w => cases hgroup
        | group g =>
            cases hgroup
            have hlt := h.index_lt hm
            refine h.visit_isOk (by omega) fun g hg => ?_
            rcases List.mem_append.1 hg with hg | hg
            · exact Nat.lt_trans hlt (htrail g hg)
            · exact List.mem_singleton.1 hg ▸ hlt
      obtain ⟨below, hbelow⟩ := foldlM_isOk hnested finished
      exact ⟨below ++ [id], by rw [hbelow]; rfl⟩

theorem Forest.groupOrder_isOk (h : c.Forest) : ∃ order, c.groupOrder = .ok order := by
  refine foldlM_isOk (fun i hi finished => ?_) []
  have hlt : i < c.groups.size := List.mem_range.1 hi
  exact h.visit_isOk (Nat.lt_succ_of_lt hlt) (List.forall_mem_nil _) finished

end Components

/-! ## Circles -/

/-- A failure that is about a component which contains itself. -/
def Failure.isCircular : Failure → Bool
  | .circular .. => true
  | _ => false

/-- A computation that does not fail because of a circle. -/
def Uncircular {α : Type} (e : Except Failure α) : Prop :=
  ∀ f, e = .error f → f.isCircular = false

namespace Uncircular

variable {α β : Type}

theorem ok (a : α) : Uncircular (.ok a) := fun _ h => by cases h

theorem error {f : Failure} (h : f.isCircular = false) : Uncircular (.error f : Except Failure α) :=
  fun _ heq => by cases heq; exact h

theorem bind {e : Except Failure α} {f : α → Except Failure β} (he : Uncircular e)
    (hf : ∀ a, Uncircular (f a)) : Uncircular (e >>= f) := by
  cases e with
  | error failure => exact error (he failure rfl)
  | ok a => exact hf a

theorem forM {f : α → Except Failure Unit} (h : ∀ x, Uncircular (f x)) :
    ∀ xs : List α, Uncircular (xs.forM f)
  | [] => ok _
  | x :: rest => (h x).bind fun _ => forM h rest

theorem mapM {f : α → Except Failure β} (h : ∀ x, Uncircular (f x)) :
    ∀ xs : List α, Uncircular (xs.mapM f)
  | [] => ok _
  | x :: rest => by
    rw [List.mapM_cons]
    exact (h x).bind fun _ => (mapM h rest).bind fun _ => ok _

end Uncircular

theorem Path.uncircular_compile (field : Bool) (role source : String) (scope : Scope) :
    Uncircular (Path.compile field role source scope) := by
  unfold compile
  split
  · exact .error rfl
  · split
    · exact .error rfl
    · exact .ok _

theorem Constraint.uncircular_compile (c : Constraint) (refers : Option IdentityId) :
    Uncircular (c.compile refers) := by
  unfold compile
  have hpaths : Uncircular (do
      let selector ← Path.compileSelector c.selector c.scope
      let fields ← c.fields.mapM fun f => Path.compileField f c.scope
      return (⟨c, selector, fields, refers⟩ : Rule)) :=
    (Path.uncircular_compile _ _ _ _).bind fun _ =>
      (Uncircular.mapM (fun _ => Path.uncircular_compile _ _ _ _) _).bind fun _ => .ok _
  dsimp only
  split
  · exact .ok _
  · rename_i failure hfailure
    have hnone := hpaths failure hfailure
    refine .error ?_
    cases failure with
    | circular => cases hnone
    | _ => rfl

namespace Components

theorem uncircular_checkHandles (c : Components) : Uncircular c.checkHandles := by
  have htype : ∀ id, Uncircular (c.checkType id) := fun id => by
    unfold checkType
    split
    · exact .ok _
    · exact .error rfl
  have hidentity : ∀ id, Uncircular (c.checkIdentity id) := fun id => by
    unfold checkIdentity
    split
    · exact .ok _
    · exact .error rfl
  have hmember : ∀ (m : Member) (text : String), Uncircular
      (if c.hasMember m then .ok () else .error (.misuse (.dangling text))) := fun m text => by
    split
    · exact .ok _
    · exact .error rfl
  refine Uncircular.bind (.forM (fun d => ?_) _) fun _ =>
    Uncircular.bind (.forM (fun t => ?_) _) fun _ => .forM (fun g => ?_) _
  · exact (htype _).bind fun _ => (Uncircular.forM (fun _ => htype _) _).bind fun _ =>
      .forM hidentity _
  · cases t with
    | simple t => exact .ok _
    | complex t =>
        refine Uncircular.bind ?_ fun _ => .forM (fun _ => htype _) _
        unfold checkContent
        split
        · exact .ok _
        · exact htype _
        · exact hmember _ _
        · exact hmember _ _
  · exact .forM (fun m => hmember m _) _

theorem uncircular_referred (c : Components) (i : Constraint) : Uncircular (c.referred i) := by
  unfold referred
  split
  · split
    · exact .error rfl
    · dsimp only
      split
      · exact .error rfl
      · split
        · exact .error rfl
        · exact .ok _
  · exact .ok _

/-- A build of a forest does not fail because of a circle. -/
theorem Forest.uncircular_build {c : Components} (h : c.Forest) : Uncircular c.build := by
  obtain ⟨order, horder⟩ := h.groupOrder_isOk
  refine c.uncircular_checkHandles.bind fun _ => Uncircular.bind (.forM (fun m => ?_) _) fun _ => ?_
  · split
    · exact .ok _
    · exact .error rfl
  · rw [horder]
    refine (Uncircular.ok order).bind fun _ => Uncircular.bind ?_ fun _ =>
      Uncircular.bind (.mapM (fun i => ?_) _) fun _ =>
        Uncircular.bind (.mapM (fun r => ?_) _) fun _ => .ok _
    · unfold checkAllGroups
      split
      · exact .ok _
      · refine .forM (fun i => ?_) _
        dsimp only
        split
        · exact .error rfl
        · exact .ok _
    · exact (c.uncircular_referred i).bind fun _ => .ok _
    · exact Constraint.uncircular_compile _ _

end Components

/-! ## Keyrefs -/

/-- A keyref that is resolved refers to a key or a unique with as many fields. -/
theorem Components.referred_keyref {c : Components} {i : Constraint} {name : QName}
    {refers : Option IdentityId} (hkind : i.kind = .keyref name) (h : c.referred i = .ok refers) :
    ∃ key, refers = some key ∧ c.identityNamed? name = some key ∧
      (c.identity key).isKeyref = false ∧ (c.identity key).fields.length = i.fields.length := by
  unfold referred at h
  rw [hkind] at h
  dsimp only at h
  split at h
  · cases h
  · rename_i key hkey
    split at h
    · cases h
    · rename_i hkeyref
      split at h
      · cases h
      · rename_i hfields
        cases h
        exact ⟨key, rfl, hkey, by simpa using hkeyref, by simpa using hfields⟩

/-! ## After any calls -/

namespace Call

open Components

/-- After any calls with new components, of which some may have failed, the members of groups are
there, each once in one group, which is its parent, and nothing else has a parent. Nested groups have
lesser handles than the groups around them, so no group is inside itself and no build fails because
of a circle. A new group that fails leaves the components as they were, and in a schema that is
built every keyref refers to a key or a unique with as many fields. -/
theorem forest_after (calls : List Call) (hfresh : ∀ call ∈ calls, call.IsFresh) {c : Components}
    (hc : after calls = c) :
    (∀ g, ∀ m ∈ (c.group g).members, c.hasMember m = true ∧ (c.group g).members.count m = 1 ∧
      (∀ g', m ∈ (c.group g').members → g' = g) ∧ c.parent? m = some g) ∧
    (∀ m, (∀ g, m ∉ (c.group g).members) → c.parent? m = none) ∧
    (∀ g sub, .group sub ∈ (c.group g).members → sub.index < g.index) ∧
    (∀ g, ¬Relation.TransGen c.IsNestedIn g g) ∧
    (∀ component name cycle, c.build ≠ .error (.circular component name cycle)) ∧
    (∀ g members failure c', (takeGroup g members).run c = .error failure c' → c' = c) ∧
    ∀ s, c.build = .ok s → ∀ id name, (s.identity id).kind = .keyref name →
      ∃ key, (s.rule id).refers = some key ∧ s.identityNamed? name = some key ∧ s.Stores key ∧
        (s.identity key).isKeyref = false ∧
        (s.identity key).fields.length = (s.identity id).fields.length := by
  subst hc
  have hassembled := assembled_after hfresh
  have hforest := hassembled.forest
  have howned := owned_after hfresh
  refine ⟨fun g m hm => ⟨hforest.isThere hm, ?_, fun g' hm' => ?_, hforest.owner hm⟩,
    fun m hm => ?_, fun g sub hsub => hforest.index_lt hsub, fun g hcircle => ?_,
    fun component name cycle hbuild => ?_, fun g members failure c' hrun => ?_,
    fun s hbuild id name hkind => ?_⟩
  · exact List.count_eq_one_of_mem (hforest.nodup g) hm
  · exact Option.some.inj ((hforest.owner hm').symm.trans (hforest.owner hm))
  · cases hparent : (after calls).parent? m with
    | none => rfl
    | some g => exact absurd (howned.mem hparent) (hm g)
  · exact absurd (hforest.index_lt_of_transGen hcircle) (Nat.lt_irrefl _)
  · have hnone := hforest.uncircular_build _ hbuild
    cases hnone
  · rw [run_takeGroup] at hrun
    cases hcheck : (after calls).checkMembers ⟨(after calls).groups.size⟩ [] members with
    | error => rw [hcheck] at hrun; cases hrun; rfl
    | ok => rw [hcheck] at hrun; cases hrun
  · have hrefers := (Schema.Built.rule_eq ⟨_, hassembled, hbuild⟩ id).2
    obtain ⟨key, hkey, hnamed, hkeyref, hfields⟩ := referred_keyref hkind hrefers
    have hknown : s.NamesKnown := (Schema.build_ok hbuild).components ▸ hassembled.namesKnown
    exact ⟨key, hkey, hnamed, hknown.identity hnamed, hkeyref, hfields⟩

/-- An element and a wildcard in a sequence, that sequence in a choice, and a keyref. In between a
group is asked for with a member that has a parent, one that is repeated and one that is not there.
-/
def sample : List Call :=
  let a : Declaration := .simple (.plain "a") ⟨0⟩
  [.builtin .string, .element a, .wildcard ⟨.any, .lax, Occurs.once, none⟩,
    .group (.ofCompositor .sequence) [.element ⟨0⟩, .wildcard ⟨0⟩],
    .group (.ofCompositor .choice) [.group ⟨0⟩, .element ⟨0⟩],
    .group (.ofCompositor .choice) [.group ⟨0⟩, .group ⟨0⟩],
    .group (.ofCompositor .choice) [.group ⟨0⟩, .element ⟨7⟩],
    .group (.ofCompositor .choice) [.group ⟨0⟩],
    .identity ⟨.plain "k", .key, "a", ["."], Scope.empty⟩,
    .identity ⟨.plain "r", .keyref (.plain "k"), "a", ["."], Scope.empty⟩]

theorem forest_after_sample : (∀ call ∈ sample, call.IsFresh) ∧
    (after sample).groups.toList.map (·.members) =
      [[.element ⟨0⟩, .wildcard ⟨0⟩], [.group ⟨0⟩]] ∧
    (∀ m, (∀ g, m ∉ ((after sample).group g).members) → (after sample).parent? m = none) ∧
    ∃ s, (after sample).build = .ok s ∧ ∃ key, (s.rule ⟨1⟩).refers = some key ∧
      (s.identity key).isKeyref = false ∧
      (s.identity key).fields.length = (s.identity ⟨1⟩).fields.length := by
  have hfresh : ∀ call ∈ sample, call.IsFresh := by decide
  obtain ⟨-, hfree, -, -, -, -, hkeyrefs⟩ := forest_after sample hfresh rfl
  refine ⟨hfresh, by decide +kernel, hfree, ?_⟩
  have hbuilds : (after sample).build.isOk = true := by decide +kernel
  cases hbuild : (after sample).build with
  | error failure => rw [hbuild] at hbuilds; cases hbuilds
  | ok s =>
      have hkind : (s.identity ⟨1⟩).kind = .keyref (.plain "k") := by
        rw [(Schema.build_ok hbuild).components]
        decide +kernel
      obtain ⟨key, hkey, -, -, hkeyref, hfields⟩ := hkeyrefs s hbuild ⟨1⟩ _ hkind
      exact ⟨s, rfl, key, hkey, hkeyref, hfields⟩

end Call

end Conform
