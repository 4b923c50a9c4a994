import Conform.Proofs.Markup.Scoping
/-!
# Attributes of a document

The attributes of a tag are told apart as they are written, those of an element by the names that
they denote. An element has all attributes of its tag, in order, exactly if no two of them denote
one name; of those that do, the last one is kept in the place of the first.
-/

namespace Conform

namespace Markup

/-- The attributes of an element as its tag has them. Those that are no declarations denote names,
under which their values are put in one after the other, and all are there exactly if the names are
distinct. -/
def KeepsAttributes (tag : Tag) (_ : List Tag) (head : Head) : Prop :=
  ∃ attributes names, tag.attributes = .ok attributes ∧
    List.Forall₂ (fun a n => head.scope.Denotes "" a.1 n) (ordinary attributes) names ∧
      head.attributes = Listing.ofList (names.zip ((ordinary attributes).map Prod.snd)) ∧
        (head.attributes.entries = names.zip ((ordinary attributes).map Prod.snd) ↔ names.Nodup)

theorem settles_keepsAttributes : Settles KeepsAttributes := by
  intro tag outer scope e _ h
  obtain ⟨attributes, _, hattributes, _, _, _, hlisting⟩ := Tag.element_eq_ok h
  obtain ⟨names, hnames, hkeys⟩ := resolveAttributes_eq_ok hlisting
  have hfst : (names.zip ((ordinary attributes).map Prod.snd)).map Prod.fst = names := by
    rw [List.map_fst_zip]
    simp [hnames.length_eq]
  refine ⟨attributes, names, hattributes, hnames, hkeys, fun hentries => ?_, fun hdistinct => ?_⟩
  · have hnodup := e.attributes.nodup
    rwa [show e.attributes.entries = _ from hentries, hfst] at hnodup
  · show e.attributes.entries = _
    rw [hkeys, Listing.entries_ofList (by rwa [hfst])]

end Markup

namespace Document

open Markup

/-- Every element of a document has the attributes of its tag, if these denote distinct names. -/
theorem parse_keeps {bytes : List UInt8} {d : Document} (h : parse bytes = .ok d) :
    ∃ (root : Element) (tree : TagTree), d.root = some root ∧
      tree.marks = marks 0 (scan bytes).events ∧ tree.Describes KeepsAttributes [] root :=
  describes_of_ofReading settles_keepsAttributes h

theorem parse_keeps_sample :
    ∃ (d : Document) (root : Element) (tree : TagTree), parse scopedSample = .ok d ∧
      d.root = some root ∧ tree.marks = marks 0 (scan scopedSample).events ∧
        tree.Describes KeepsAttributes [] root := by
  have hok : (parse scopedSample).isOk = true := by decide +kernel
  cases h : parse scopedSample with
  | error failure => rw [h] at hok; cases hok
  | ok d =>
      obtain ⟨root, tree, hroot, hmarks, hkeeps⟩ := parse_keeps h
      exact ⟨d, root, tree, rfl, hroot, hmarks, hkeeps⟩

/-- Two prefixes for one namespace: the tag has two attributes of one name, the document is read all
the same, and its root has one attribute. -/
theorem parse_merges :
    (parse (Text.octets "<a xmlns:p='u' xmlns:q='u' p:x='1' q:x='2'/>")).toOption.bind
      (·.root.map (·.attributes.entries)) = some [(⟨"u", "x"⟩, "2")] := by
  decide +kernel

end Document

end Conform
