import Conform.Proofs.Decode.Parts
import Conform.Proofs.Identity.References
import Conform.Proofs.Model.Hollow
import Conform.Proofs.Schema.Sample
/-!
# Elements without children

Of an element without children a pass reports what its content model misses in the end, and nothing
else that has to do with children. So such an element is reported if the facts about its group say
that the group cannot be empty, and only then where the counts of a walk without children tell it.
-/

namespace Conform

/-- The diagnostics about children. -/
def amongChildren (ds : List Diagnostic) : List Diagnostic :=
  ds.filter fun d => d.kind = .children

theorem amongChildren_append (ds ds' : List Diagnostic) :
    amongChildren (ds ++ ds') = amongChildren ds ++ amongChildren ds' :=
  List.filter_append ..

theorem amongChildren_eq_nil_iff {ds : List Diagnostic} :
    amongChildren ds = [] ↔ ∀ d ∈ ds, d.kind ≠ .children := by
  simp [amongChildren, List.filter_eq_nil_iff]

namespace Pass

variable {α : Type} {p : Pass α} {path : String}

/-- A pass that reports nothing about children. -/
def IgnoresChildren (p : Pass α) : Prop := p.ReportsOnly fun d => d.kind ≠ .children

/-- Nothing that is decoded of a tag is about children. -/
theorem IgnoresChildren.tagwise : Tagwise Eq path (fun p => p.IgnoresChildren) where
  done := ReportsOnly.done
  ofExcept _ := ReportsOnly.ofExcept _
  report _ hkind := ReportsOnly.report hkind
  andThen := ReportsOnly.andThen
  withOptions _ hf := ReportsOnly.options.andThen hf

theorem IgnoresChildren.amongChildren_eq_nil (hp : p.IgnoresChildren) {o : Options} {a : α}
    {ds : List Diagnostic} (h : p o = .ok (a, ds)) : amongChildren ds = [] :=
  amongChildren_eq_nil_iff.2 (hp o a ds h)

end Pass

namespace Schema

open Pass

variable {s : Schema} {o : Options} {id : ElementId} {level : Nat} {path : String} {e : Element}
  {g : GroupId}

/-- The diagnostics that stand for issues of the content of an element. -/
def childrenDiagnostics (s : Schema) (id : ElementId) (path : String) (e : Element)
    (issues : List Issue) : List Diagnostic :=
  issues.map fun i => .errorAt (.children (s.childrenFault e i)) path id

theorem amongChildren_childrenDiagnostics (issues : List Issue) :
    amongChildren (s.childrenDiagnostics id path e issues) =
      s.childrenDiagnostics id path e issues := by
  refine List.filter_eq_self.2 fun d hd => ?_
  obtain ⟨i, -, rfl⟩ := List.mem_map.1 hd
  rfl

/-! ## The content model -/

/-- Without children, the issues are the violations of a walk that is stopped at once. -/
theorem issues_nil {w : Walk} {violations : List Violation}
    (hstart : Walk.start s g s.version = .ok w) (hstop : (w.stop s).1 = .ok violations) :
    s.attribution g [] = .ok ⟨[], .ok (violations.map (Issue.ofViolation 0))⟩ := by
  have hfinish : Matching.finish s ⟨w, false, []⟩ 0 =
      .ok (violations.map (Issue.ofViolation 0)) := by
    unfold Matching.finish
    dsimp only
    rw [hstop]
    rfl
  unfold attribution Matching.start
  rw [hstart]
  exact congrArg (fun issues => Except.ok (Attribution.mk [] issues)) hfinish

/-- Where the counts tell so, no children are no issue if the group can be empty. -/
theorem Waits.attribution_nil (hwaits : s.Waits g) (hs : s.Built)
    (hdepth : s.isWithin s.limits.maxModelDepth g = true) :
    ∃ issues, s.attribution g [] = .ok ⟨[], .ok issues⟩ ∧
      (s.Conclusive g → s.isEmptiable (.group g) = true → issues = []) := by
  obtain ⟨w, violations, hstart, hstop, hquiet⟩ := hwaits.stop_start hs hdepth
  exact ⟨_, issues_nil hstart hstop, fun hc hempty => List.map_eq_nil_iff.2 (hquiet hc hempty)⟩

/-- No leaves go to no children. -/
theorem leaves_attribution_nil {a : Attribution} (h : s.attribution g [] = .ok a) :
    a.leaves = [] := by
  simp only [attribution, Matching.start, bind, Except.bind, pure, Except.pure] at h
  split at h
  · cases h
  · cases h
    rfl

/-! ## The element -/

variable (id level path)

theorem openContent_childless (hmode : o.mode = .lax) (hchildren : e.children = []) (isMixed : Bool)
    {issues : List Issue} (hissues : s.attribution g [] = .ok ⟨[], .ok issues⟩) :
    ∃ text ds, s.openContent id path g isMixed e o = .ok (⟨text, ⟨[], .ok issues⟩⟩, ds) ∧
      amongChildren ds = [] := by
  have hattribution : Pass.ofExcept (s.attributionIn o g (e.children.map (·.name))) o =
      .ok (⟨[], .ok issues⟩, []) := by
    rw [attributionIn, if_neg (by simp [Options.isSkip, hmode]), hchildren]
    exact congrArg (Except.map fun a => (a, [])) hissues
  simp only [openContent, bind_eq_andThen, pure_eq_done]
  refine ⟨_, _, andThen_of_ok (reportIf_lax hmode _ _)
    ((options_andThen _ o).trans (andThen_of_ok hattribution rfl)), ?_⟩
  rw [List.append_nil]
  split <;> rfl

theorem closeContent_lax (hmode : o.mode = .lax) (e : Element) (decoded : Decoded)
    (text : Option Json) (issues : List Issue) (below : Children) :
    ∃ t ds, s.closeContent id path e decoded ⟨text, ⟨[], .ok issues⟩⟩ below o = .ok (t, ds) ∧
      amongChildren ds = s.childrenDiagnostics id path e issues := by
  have hissues : Pass.ofExcept (.ok issues) o = .ok (issues, []) := rfl
  simp only [closeContent, bind_eq_andThen, pure_eq_done]
  refine ⟨_, _, andThen_of_ok hissues (andThen_of_ok (reportAll_lax hmode _) rfl), ?_⟩
  rw [List.nil_append, List.append_nil]
  exact amongChildren_childrenDiagnostics issues

/-- The content of an element without children is decoded, and its issues are reported. -/
theorem contentOf_childless (hmode : o.mode = .lax) (hchildren : e.children = []) {opened : Opened}
    {isMixed : Bool} (hform : opened.form = .children g isMixed) {issues : List Issue}
    (hissues : s.attribution g [] = .ok ⟨[], .ok issues⟩) :
    ∃ t ds, s.contentOf id level path e opened o = .ok (t, ds) ∧
      amongChildren ds = s.childrenDiagnostics id path e issues := by
  obtain ⟨text, before, hstart, hbefore⟩ :=
    openContent_childless id path hmode hchildren isMixed hissues
  obtain ⟨t, after, hend, hafter⟩ :=
    closeContent_lax id path hmode e opened.decoded text issues .nothing
  have hbelow : s.decodeChildren (level + 1) [] (e.childPaths path) e.children o =
      .ok (.nothing, []) := by
    rw [hchildren]
    rfl
  unfold contentOf
  rw [hform]
  refine ⟨t, _, andThen_of_ok hstart (andThen_of_ok hbelow hend), ?_⟩
  rw [amongChildren_append, hbefore, hafter.symm]
  rfl

/-- The check of identity constraints goes through, and reports nothing about children. -/
theorem closeElement_lax (hmode : o.mode = .lax) (t : Subtree) :
    ∃ u ds, s.closeElement id t o = .ok (u, ds) ∧ amongChildren ds = [] := by
  unfold closeElement
  rw [bind_eq_andThen, options_andThen]
  split
  · exact ⟨t, [], rfl, rfl⟩
  · refine ⟨_, _, andThen_of_ok (reportAll_lax hmode _) rfl, ?_⟩
    rw [List.append_nil]
    refine amongChildren_eq_nil_iff.2 fun d hd => ?_
    obtain ⟨problem, hproblem, rfl⟩ := List.mem_map.1 hd
    have hkind : problem.kind = .identity := kind_checkScope _ hproblem
    exact fun heq => by cases hkind.symm.trans heq

variable {id level path}

/-- What is reported about children when an element is decoded is what its content reports. -/
theorem decodeElement_of_content (hmode : o.mode = .lax) {opened : Opened}
    {before : List Diagnostic} (hopen : s.openElement id level path e o = .ok (opened, before))
    {t : Subtree} {ds : List Diagnostic}
    (hcontent : s.contentOf id level path e opened o = .ok (t, ds)) :
    ∃ u ds', s.decodeElement id level path e o = .ok (u, ds') ∧
      amongChildren ds' = amongChildren ds := by
  obtain ⟨u, after, hclose, hafter⟩ := closeElement_lax id hmode t
  have hbefore := (IgnoresChildren.tagwise.openElement s id level (congrArg _) e
    ).amongChildren_eq_nil hopen
  rw [decodeElement_eq]
  refine ⟨u, _, andThen_of_ok hopen (andThen_of_ok hcontent hclose), ?_⟩
  rw [amongChildren_append, amongChildren_append, hbefore, hafter, List.nil_append, List.append_nil]

/-- An element without children is decoded only if its content model comes to its end. -/
theorem attribution_of_decodeElement (hmode : o.mode = .lax) (hchildren : e.children = [])
    {opened : Opened} {before : List Diagnostic}
    (hopen : s.openElement id level path e o = .ok (opened, before)) {isMixed : Bool}
    (hform : opened.form = .children g isMixed) {t : Subtree} {ds : List Diagnostic}
    (h : s.decodeElement id level path e o = .ok (t, ds)) :
    ∃ issues, s.attribution g [] = .ok ⟨[], .ok issues⟩ := by
  rw [decodeElement_eq] at h
  obtain ⟨opened', _, _, hopen', hrest, -⟩ := ok_of_andThen h
  obtain rfl : opened' = opened := congrArg Prod.fst (Except.ok.inj (hopen'.symm.trans hopen))
  obtain ⟨_, _, _, hcontent, -, -⟩ := ok_of_andThen hrest
  unfold contentOf at hcontent
  rw [hform] at hcontent
  obtain ⟨content, _, _, hstart, hbelow, -⟩ := ok_of_andThen hcontent
  obtain ⟨_, _, _, -, hend, -⟩ := ok_of_andThen hbelow
  unfold closeContent at hend
  obtain ⟨issues, _, _, hissues, -, -⟩ := ok_of_andThen hend
  have hattribution := (openContent_ok hstart).1
  rw [attributionIn, if_neg (by simp [Options.isSkip, hmode]), hchildren] at hattribution
  refine ⟨issues, hattribution.trans (congrArg Except.ok ?_)⟩
  rw [← leaves_attribution_nil hattribution, ← (ok_of_ofExcept hissues).1]

/-- The form of an element that is not nil and has element-only content. -/
theorem form_of_elementOnly {opened : Opened} {before : List Diagnostic}
    (hopen : s.openElement id level path e o = .ok (opened, before))
    (hnil : opened.decoded.isNil = false) {type : TypeId} {c : ComplexType}
    (htype : ∃ ds, s.typeOf id path e o = .ok (type, ds)) (hcomplex : s.type type = .complex c)
    (hcontent : c.content = .elementOnly g) :
    opened.form = if s.isUnfulfillable g then .unfulfillable else .children g false := by
  obtain ⟨type', isNil, _, ⟨_, htype'⟩, -, -, hdecoded, hform⟩ := openElement_ok hopen
  obtain ⟨_, htype⟩ := htype
  obtain rfl : type' = type := congrArg Prod.fst (Except.ok.inj (htype'.symm.trans htype))
  obtain rfl : isNil = false := by simpa [hdecoded] using hnil
  rcases hform with ⟨htrue, -⟩ | ⟨-, hform⟩
  · cases htrue
  · simp only [hcomplex, formOf, hcontent] at hform
    exact (Except.ok.inj hform).symm

/-- A choice of nothing that must occur is reported. -/
theorem contentOf_unfulfillable (hmode : o.mode = .lax) {opened : Opened}
    (hform : opened.form = .unfulfillable) : s.contentOf id level path e opened o =
      .ok (⟨opened.decoded, .empty, false⟩, [.errorAt .emptyChoice path id]) := by
  unfold contentOf
  simp only [hform, decodeLeaf, bind_eq_andThen, pure_eq_done]
  exact andThen_of_ok (report_lax hmode _) rfl

theorem Built.isEmptiable_of_isUnfulfillable (hs : s.Built) (h : s.isUnfulfillable g = true) :
    s.isEmptiable (.group g) = true := by
  simp only [isUnfulfillable, Bool.and_eq_true, List.isEmpty_iff] at h
  exact hs.isEmptiable_of_isVoid ⟨g, rfl, h.1.1⟩

end Schema

/-- A root of up to two `c` or nothing, and an `a` and perhaps a `b` in any order. -/
def childlessSample : Components :=
  let c := Components.withElements .v11 [("a", .once), ("b", ⟨0, some 1⟩), ("c", .once)]
  let c := c.withGroup .all .once [.element ⟨0⟩, .element ⟨1⟩]
  let c := c.withGroup .sequence .once []
  let c := c.withGroup .choice ⟨0, some 2⟩ [.element ⟨2⟩, .group ⟨1⟩]
  let c := c.withGroup .sequence .once [.group ⟨2⟩, .group ⟨0⟩]
  let c := (c.addLocalType (.complex (.ofContent (.elementOnly ⟨3⟩)))).2
  (c.addGlobalElement (Declaration.simple (.plain "root") ⟨1⟩)).2

theorem built_childlessSample : childlessSample.schema.Built :=
  Components.Assembled.built (.globalElement _ (.localType _ (((((Components.assembled_withElements
    ..).withGroup ..).withGroup ..).withGroup ..).withGroup ..) ..)) (by decide +kernel)

theorem conclusive_childlessSample : childlessSample.schema.Conclusive ⟨3⟩ where
  waits _ g hg _ hall _ := by
    have hleaf : ∀ i < 4, (childlessSample.schema.group ⟨i⟩).compositor = .all →
        ∃ m ∈ childlessSample.schema.leaves ⟨i⟩, (childlessSample.schema.occurs m).min ≠ 0 := by
      decide +kernel
    exact hleaf g.index (Nat.lt_succ_of_le (hg.index_le built_childlessSample)) hall
  choice hchoice := by cases hchoice
  all _ hall := by cases hall

/-- An element of a choice of nothing, and an element of a choice of an `a` that may be left out. -/
def reportedSample : Components :=
  let c := Components.withElements .v10 [("a", ⟨0, some 1⟩)]
  let c := c.withGroup .choice .once []
  let c := c.withGroup .choice .once [.element ⟨0⟩]
  let c := (c.addLocalType (.complex (.ofContent (.elementOnly ⟨0⟩)))).2
  let c := (c.addLocalType (.complex (.ofContent (.elementOnly ⟨1⟩)))).2
  let c := (c.addGlobalElement (Declaration.simple (.plain "none") ⟨1⟩)).2
  (c.addGlobalElement (Declaration.simple (.plain "optional") ⟨2⟩)).2

end Conform
