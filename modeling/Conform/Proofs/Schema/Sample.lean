import Conform.Proofs.Schema.Built
/-!
# Small schemas

Schemas of a few elements and groups, to try a statement on.
-/

namespace Conform.Components

/-- Elements of the builtin type of strings, with their names and bounds. -/
def withElements (v : Version) (ds : List (String × Occurs)) : Components :=
  ds.foldl (fun c d => (c.addElement { Declaration.simple (.plain d.1) ⟨0⟩ with occurs := d.2 }).2)
    ((empty v .standard).builtin .string).2

/-- The components with one more group, if it can be added. -/
def withGroup (c : Components) (compositor : Compositor) (o : Occurs) (members : List Member) :
    Components :=
  match c.addGroup { Group.ofCompositor compositor with occurs := o } members with
  | .ok (_, c) => c
  | .error _ => c

/-- The schema that the components make up, if they do. -/
def schema (c : Components) : Schema :=
  match c.build with
  | .ok s => s
  | .error _ => default

theorem build_schema {c : Components} (hok : c.build.isOk = true) : c.build = .ok c.schema := by
  unfold schema
  split
  · assumption
  · rename_i hbuild
    rw [hbuild] at hok
    cases hok

theorem assembled_withElements (v : Version) (ds : List (String × Occurs)) :
    (withElements v ds).Assembled := by
  have hfold : ∀ {c : Components}, c.Assembled → (ds.foldl (fun c d => (c.addElement
      { Declaration.simple (.plain d.1) ⟨0⟩ with occurs := d.2 }).2) c).Assembled := by
    induction ds with
    | nil => exact id
    | cons d ds ih => exact fun hc => ih (hc.element _)
  exact hfold (.builtin .string (.empty v .standard))

theorem Assembled.withGroup {c : Components} (h : c.Assembled) (compositor : Compositor)
    (o : Occurs) (members : List Member) : (c.withGroup compositor o members).Assembled := by
  unfold Components.withGroup
  split
  · rename_i hadd
    exact h.group _ _ hadd
  · exact h

theorem Assembled.built {c : Components} (h : c.Assembled) (hok : c.build.isOk = true) :
    c.schema.Built :=
  ⟨c, h, build_schema hok⟩

end Conform.Components
