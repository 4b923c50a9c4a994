import Conform.Proofs.Markup.Tokens
/-!
# Trees of tags

The tags of a document form a tree, and every element stands in the document where its tag stands
in that tree. A property of an element that its own tag and the tags around it settle holds of all
elements, since an element is opened in the scope of the innermost open one.
-/

namespace Conform.Markup

/-- A tag with the trees of the tags inside its element. -/
inductive TagTree where
  | node (tag : Tag) (inner : List TagTree)

/-- The beginning or the end of an element. -/
inductive Mark where
  | opening (tag : Tag)
  | closing
deriving DecidableEq

namespace TagTree

mutual

/-- The marks of a tree in document order. -/
def marks : TagTree → List Mark
  | .node tag inner => .opening tag :: (marksOfAll inner ++ [.closing])

/-- The marks of trees that follow each other. -/
def marksOfAll : List TagTree → List Mark
  | [] => []
  | t :: rest => marks t ++ marksOfAll rest

end

variable (P : Tag → List Tag → Head → Prop)

mutual

/-- An element and the elements inside it are as `P` has them by their tags and the tags around
these, innermost first. -/
def Describes (outer : List Tag) : TagTree → Element → Prop
  | .node tag inner, e => P tag outer e.head ∧ DescribesAll (tag :: outer) inner e.children

/-- Elements are as their tags have them, one by one. -/
def DescribesAll (outer : List Tag) : List TagTree → List Element → Prop
  | [], [] => True
  | t :: ts, e :: es => Describes outer t e ∧ DescribesAll outer ts es
  | _, _ => False

end

end TagTree

/-- The marks of an event inside open elements. The end of no element is none. -/
def Event.marks (opened : Nat) : Event → List Mark
  | .start tag => [.opening tag]
  | .empty tag => [.opening tag, .closing]
  | .close => if opened = 0 then [] else [.closing]
  | _ => []

/-- The marks of events inside open elements. -/
def marks : Nat → List Event → List Mark
  | _, [] => []
  | opened, e :: rest => e.marks opened ++ marks (e.level opened) rest

variable {P : Tag → List Tag → Head → Prop} {outer : List Tag}

namespace TagTree

theorem marksOfAll_concat (ts : List TagTree) (t : TagTree) :
    marksOfAll (ts ++ [t]) = marksOfAll ts ++ t.marks := by
  induction ts with
  | nil => simp [marksOfAll]
  | cons t' ts ih => simp [marksOfAll, ih]

theorem describesAll_nil : DescribesAll P outer [] [] := trivial

theorem describesAll_concat {t : TagTree} {e : Element} (h : t.Describes P outer e) :
    ∀ {ts : List TagTree} {es : List Element}, DescribesAll P outer ts es →
      DescribesAll P outer (ts ++ [t]) (es ++ [e])
  | [], [], _ => ⟨h, trivial⟩
  | _ :: _, _ :: _, hall => ⟨hall.1, describesAll_concat h hall.2⟩
  | [], _ :: _, hall => hall.elim
  | _ :: _, [], hall => hall.elim

/-- Character data behind the children changes nothing that tags speak of. -/
theorem describesAll_appendTail (more : String) :
    ∀ {ts : List TagTree} {es : List Element}, DescribesAll P outer ts es →
      DescribesAll P outer ts (Element.appendTail more es)
  | [], [], _ => trivial
  | [.node _ _], [_], hall => ⟨⟨hall.1.1, hall.1.2⟩, trivial⟩
  | _ :: _ :: _, _ :: _ :: _, hall => ⟨hall.1, describesAll_appendTail more hall.2⟩
  | _ :: _ :: _, [_], hall => hall.2.elim
  | [_], _ :: _ :: _, hall => hall.2.elim
  | [], _ :: _, hall => hall.elim
  | _ :: _, [], hall => hall.elim

theorem describesAll_appendText {ts : List TagTree} {e : Element} (more : String)
    (h : DescribesAll P outer ts e.children) :
    (e.appendText more).head = e.head ∧ DescribesAll P outer ts (e.appendText more).children := by
  unfold Element.appendText
  split
  · exact ⟨rfl, h⟩
  · exact ⟨rfl, describesAll_appendTail more h⟩

end TagTree

/-- The scope of the innermost of the tags around a place. -/
inductive Around (P : Tag → List Tag → Head → Prop) : List Tag → Scope → Prop
  | outside : Around P [] Building.baseScope
  | inside {tag : Tag} {outer : List Tag} {head : Head} :
    P tag outer head → Around P (tag :: outer) head.scope

/-- Elements that are opened by a tag are as `P` has them. -/
def Settles (P : Tag → List Tag → Head → Prop) : Prop :=
  ∀ {tag : Tag} {outer : List Tag} {scope : Scope} {e : Element},
    Around P outer scope → tag.element scope = .ok e → P tag outer e.head

namespace Building

open TagTree

variable {b b' : Building} {tags : List Tag} {ms : List Mark}

/-- The root, open elements behind it with their tags, innermost first, and the marks so far. -/
inductive Carries (P : Tag → List Tag → Head → Prop) (root : Option Element) :
    List Tag → List Element → List Mark → Prop
  | outside {trees : List TagTree} :
    DescribesAll P [] trees root.toList → Carries P root [] [] (marksOfAll trees)
  | inside {tag : Tag} {outer : List Tag} {e : Element} {es : List Element} {ms : List Mark}
      {trees : List TagTree} :
    Carries P root outer es ms → P tag outer e.head →
    DescribesAll P (tag :: outer) trees e.children →
    Carries P root (tag :: outer) (e :: es) (ms ++ .opening tag :: marksOfAll trees)

theorem Carries.around (h : Carries P b.root tags b.opened ms) : Around P tags b.scope := by
  obtain ⟨root, opened⟩ := b
  cases h with
  | outside => exact .outside
  | inside _ hhead => exact .inside hhead

theorem Carries.start {tag : Tag} {e : Element} (h : Carries P b.root tags b.opened ms)
    (hhead : P tag tags e.head) (hchildren : e.children = []) :
    Carries P b.root (tag :: tags) (e :: b.opened) (ms ++ [.opening tag]) := by
  have hinner : DescribesAll P (tag :: tags) [] e.children := hchildren ▸ describesAll_nil
  exact .inside h hhead hinner

/-- An element that is attached brings its tree. -/
theorem Carries.attach {e : Element} {t : TagTree} (h : Carries P b.root tags b.opened ms)
    (ht : t.Describes P tags e) (hattach : b.attach e = .ok b') :
    Carries P b'.root tags b'.opened (ms ++ t.marks) := by
  obtain ⟨root, opened⟩ := b
  unfold Building.attach at hattach
  cases h with
  | inside houter hhead hall =>
      cases hattach
      rw [List.append_assoc, List.cons_append, ← marksOfAll_concat]
      exact .inside houter hhead (describesAll_concat ht hall)
  | outside hall =>
      cases root with
      | some r => cases hattach
      | none =>
          cases hattach
          rw [← marksOfAll_concat]
          exact .outside (describesAll_concat ht hall)

theorem Carries.append (h : Carries P b.root tags b.opened ms) (more : String) :
    Carries P (b.append more).root tags (b.append more).opened ms := by
  obtain ⟨root, opened⟩ := b
  cases h with
  | outside hall => exact .outside hall
  | inside houter hhead hall =>
      obtain ⟨hsame, hchildren⟩ := describesAll_appendText more hall
      exact .inside houter (hsame ▸ hhead) hchildren

/-- The innermost open element is closed. -/
theorem Carries.close {e : Element} {es : List Element} (h : Carries P b.root tags b.opened ms)
    (hopened : b.opened = e :: es) (hattach : Building.attach { b with opened := es } e = .ok b') :
    Carries P b'.root tags.tail b'.opened (ms ++ [.closing]) := by
  obtain ⟨root, opened⟩ := b
  obtain rfl : opened = e :: es := hopened
  cases h with
  | @inside tag outer _ _ before trees houter hhead hall =>
      have hinner := Carries.attach (b := ⟨root, es⟩) houter (t := .node tag trees)
        ⟨hhead, hall⟩ hattach
      simpa [TagTree.marks] using hinner

/-- An event adds its marks. -/
theorem Carries.step {e : Event} (hP : Settles P) (h : Carries P b.root tags b.opened ms)
    (hstep : b.step e = .ok b') :
    ∃ tags', Carries P b'.root tags' b'.opened (ms ++ e.marks b.opened.length) := by
  cases steps_of_step hstep with
  | @start tag _ helement =>
      obtain ⟨-, -, hchildren⟩ := Tag.eq_of_element helement
      exact ⟨tag :: tags, h.start (hP h.around helement) hchildren⟩
  | @empty tag _ _ helement hattach =>
      obtain ⟨-, -, hchildren⟩ := Tag.eq_of_element helement
      exact ⟨tags, h.attach (t := .node tag [])
        ⟨hP h.around helement, hchildren ▸ describesAll_nil⟩ hattach⟩
  | close hopened hattach =>
      exact ⟨tags.tail, by simpa [Event.marks, hopened] using h.close hopened hattach⟩
  | text => exact ⟨tags, by simpa [Event.marks] using h.append _⟩
  | data => exact ⟨tags, by simpa [Event.marks] using h.append _⟩
  | skipped => exact ⟨tags, by simpa [Event.marks] using h⟩
  | outside hopened he =>
      obtain rfl | ⟨octets, rfl | rfl⟩ := he <;>
        exact ⟨tags, by simpa [Event.marks, hopened] using h⟩

/-- A run adds the marks of its events. -/
theorem Carries.run (hP : Settles P) : ∀ {events : List Event} {b b' : Building} {tags : List Tag}
    {ms : List Mark}, Carries P b.root tags b.opened ms → b.Tailless →
    events.foldlM Building.step b = .ok b' →
    ∃ tags', Carries P b'.root tags' b'.opened (ms ++ Markup.marks b.opened.length events)
  | [], b, b', tags, ms, h, _, hrun => by
    cases hrun
    exact ⟨tags, by rwa [Markup.marks, List.append_nil]⟩
  | e :: rest, b, b', tags, ms, h, hb, hrun => by
    rw [List.foldlM_cons] at hrun
    cases hstep : b.step e with
    | error f => rw [hstep] at hrun; cases hrun
    | ok mid =>
        rw [hstep] at hrun
        have htakes := takes_of_step hstep hb
        obtain ⟨inner, hmid⟩ := h.step hP hstep
        obtain ⟨tags', hlast⟩ := hmid.run hP htakes.tailless hrun
        refine ⟨tags', ?_⟩
        rw [Markup.marks, ← List.append_assoc, ← htakes.level]
        exact hlast

/-- When everything is closed there is the tree of the root. -/
theorem Carries.closed {root : Element} (h : Carries P (some root) tags [] ms) :
    ∃ tree : TagTree, ms = tree.marks ∧ tree.Describes P [] root := by
  cases h with
  | @outside trees hall =>
      match trees, hall with
      | [tree], hall => exact ⟨tree, List.append_nil _, hall.1⟩
      | _ :: _ :: _, hall => exact hall.2.elim

end Building

end Markup

namespace Document

open Markup

/-- What tags settle of the elements they open holds all over a document. -/
theorem describes_of_ofReading {P : Tag → List Tag → Head → Prop} (hP : Settles P) {r : Reading}
    {d : Document} (h : ofReading r = .ok d) :
    ∃ root tree, d.root = some root ∧ tree.marks = marks 0 r.events ∧
      TagTree.Describes P [] tree root := by
  obtain ⟨root, hroot, hrun⟩ := ofReading_eq_ok h
  have hstart : Building.Carries P Building.start.root [] Building.start.opened [] :=
    @Building.Carries.outside P none [] TagTree.describesAll_nil
  obtain ⟨tags, hcarries⟩ := hstart.run hP (fun x hx => absurd hx List.not_mem_nil) hrun
  obtain ⟨tree, hmarks, hdescribes⟩ := hcarries.closed
  exact ⟨root, tree, hroot, hmarks.symm, hdescribes⟩

end Document

end Conform
