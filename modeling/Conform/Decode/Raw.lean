import Conform.Decode.Children
import Conform.Decode.Text
/-!
# Elements without a declaration

An element that a wildcard admits without a declaration is kept as it is, down to the bound on the
depth of the pass.
-/

namespace Conform

/-- The attributes of an element as they are written. -/
def Element.rawAttributes (e : Element) : Listing QName Json := e.attributes.mapValues .text

mutual

/-- The element at a level with its texts kept as they are. -/
def decodeRaw (limits : Limits) (o : Options) (level : Nat) (path : String) :
    Element → Except Failure Decoded
  | e@⟨_, _, _, _, children, _⟩ =>
    match limits.checkMarkupDepth (level + 1) with
    | .error failure => .error failure
    | .ok () =>
      let decoded := { Decoded.leaf e.name path with
        attributes := e.rawAttributes
        text := e.joinedText }
      if o.isTooDeep (level + 1) then .ok decoded
      else
        match decodeRawAll limits o (level + 1) (e.childPaths path) children with
        | .error failure => .error failure
        | .ok children => .ok { decoded with children }

/-- The elements of a level, with their paths. -/
def decodeRawAll (limits : Limits) (o : Options) (level : Nat) :
    List String → List Element → Except Failure (List Decoded)
  | path :: paths, e :: rest =>
    match decodeRaw limits o level path e with
    | .error failure => .error failure
    | .ok decoded =>
      match decodeRawAll limits o level paths rest with
      | .error failure => .error failure
      | .ok more => .ok (decoded :: more)
  | [], _ :: _ => .ok []
  | _, [] => .ok []

end

end Conform
