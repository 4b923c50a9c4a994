import Conform.Proofs.Decode.Parts
/-!
# Strict and lax passes

A strict pass comes to the same as a lax one, unless the lax one finds an error: then it ends with
the first of them. Every part of a pass agrees in this way, and so does what is put together from
parts that do.
-/

namespace Conform

namespace Pass

variable {α β : Type}

/-- What a strict pass makes of the outcome of a lax one: the first error ends it. A lax pass only
fails where a strict one does, though maybe later. -/
inductive Strictly : Except Failure (α × List Diagnostic) →
    Except Failure (α × List Diagnostic) → Prop
  | clean {a : α} {ds : List Diagnostic} : ds.find? Diagnostic.isError = none →
      Strictly (.ok (a, ds)) (.ok (a, ds))
  | invalid {a : α} {ds : List Diagnostic} {d : Diagnostic} :
      ds.find? Diagnostic.isError = some d → Strictly (.ok (a, ds)) (.error (.invalid d))
  | failed {f f' : Failure} : Strictly (.error f) (.error f')

/-- The strict pass follows from the lax one, whatever the other options. -/
def Agrees (p : Pass α) : Prop :=
  ∀ o : Options, Strictly (p (o.inMode .lax)) (p (o.inMode .strict))

theorem Agrees.done (a : α) : (Pass.done a).Agrees := fun _ => .clean rfl

theorem Agrees.ofExcept (e : Except Failure α) : (Pass.ofExcept e).Agrees := by
  intro o
  cases e with
  | error f => exact .failed
  | ok a => exact .clean rfl

/-- What comes after an error does not matter to a strict pass. -/
theorem Agrees.andThen {p : Pass α} {f : α → Pass β} (hp : p.Agrees) (hf : ∀ a, (f a).Agrees) :
    (p.andThen f).Agrees := by
  intro o
  have hfirst := hp o
  unfold Pass.andThen
  generalize p (o.inMode .lax) = lax at hfirst
  generalize p (o.inMode .strict) = strict at hfirst
  cases hfirst with
  | failed => exact .failed
  | @clean a ds hclean =>
      have hnext := hf a o
      dsimp only
      generalize f a (o.inMode .lax) = lax at hnext
      generalize f a (o.inMode .strict) = strict at hnext
      cases hnext with
      | failed => exact .failed
      | clean hmore => exact .clean (by rw [List.find?_append, hclean, hmore, Option.none_or])
      | invalid hmore => exact .invalid (by rw [List.find?_append, hclean, hmore, Option.none_or])
  | @invalid a ds d hfound =>
      dsimp only
      cases f a (o.inMode .lax) with
      | error _ => exact .failed
      | ok r => exact .invalid (by rw [List.find?_append, hfound, Option.some_or])

/-- A pass may look at its options, but not at whether it is strict or lax. -/
theorem Agrees.withOptions {f : Options → Pass α}
    (hmode : ∀ o : Options, f (o.inMode .lax) = f (o.inMode .strict)) (hf : ∀ o, (f o).Agrees) :
    (Pass.options.andThen f).Agrees := by
  intro o
  rw [options_andThen, options_andThen, ← hmode]
  exact hf (o.inMode .lax) o

theorem Agrees.report (d : Diagnostic) : (Pass.report d).Agrees := by
  intro o
  unfold Pass.report Mode.keep
  by_cases hd : d.isError = true
  · rw [if_pos hd]
    exact .invalid (by simp [hd])
  · rw [if_neg hd]
    exact .clean (by simpa using hd)

/-- Every part of a pass agrees. -/
theorem Agrees.modular {path : String} :
    Modular (fun o o' => ∃ p : Options, o = p.inMode .lax ∧ o' = p.inMode .strict) path
      @Agrees where
  usesDefaults := by
    rintro _ _ ⟨p, rfl, rfl⟩
    rfl
  done := .done
  ofExcept := fun _ => .ofExcept _
  report := fun _ => .report _
  andThen := .andThen
  withOptions := fun hsame => .withOptions fun o => hsame ⟨o, rfl, rfl⟩

theorem Agrees.reportAll : ∀ ds : List Diagnostic, (Pass.reportAll ds).Agrees
  | [] => .done ()
  | d :: rest => (Agrees.report d).andThen fun _ => .reportAll rest

end Pass

namespace Schema

open Pass

variable (s : Schema) (id : ElementId) (level : Nat) (path : String)

/-- Identity constraints are checked in both modes. -/
theorem agrees_closeElement (t : Subtree) : (s.closeElement id t).Agrees := by
  refine .withOptions (fun _ => rfl) fun o => ?_
  split
  · exact .done t
  · exact (Agrees.reportAll _).andThen fun _ => .done _

mutual

theorem agrees_decodeElement : ∀ (id : ElementId) (level : Nat) (path : String) (e : Element),
    (s.decodeElement id level path e).Agrees
  | id, level, path, ⟨_, _, _, _, children, _⟩ => by
    unfold decodeElement
    refine (Agrees.modular.openElement s id level _).andThen fun opened => ?_
    refine Agrees.andThen ?_ fun t => s.agrees_closeElement id t
    split
    · have hskip : ∀ {o o' : Options},
          (∃ p : Options, o = p.inMode .lax ∧ o' = p.inMode .strict) → o.isSkip = o'.isSkip := by
        rintro _ _ ⟨p, rfl, rfl⟩
        rfl
      refine (Agrees.modular.openContent s id _ _ _ hskip fun _ _ => .ofExcept _).andThen
        fun content => ?_
      exact (agrees_decodeChildren (level + 1) content.attribution.leaves _ children).andThen
        fun below => Agrees.modular.closeContent s id _ _ content below (.ofExcept _)
    · exact Agrees.modular.decodeLeaf s id _ _ _

theorem agrees_decodeChildren : ∀ (level : Nat) (leaves : List (Option Member))
    (paths : List String) (es : List Element), (s.decodeChildren level leaves paths es).Agrees
  | level, leaf :: leaves, path :: paths, e :: rest => by
    unfold decodeChildren
    split
    · exact agrees_decodeChildren level leaves paths rest
    · refine .withOptions (fun _ => rfl) fun o => ?_
      refine Agrees.andThen ?_ fun _ =>
        (agrees_decodeChildren level leaves paths rest).andThen fun _ => .done _
      split
      · exact .done _
      · split
        · exact (@Agrees.modular path).map (agrees_decodeElement _ level path e) _
        · have hdepth : ∀ {o o' : Options},
              (∃ p : Options, o = p.inMode .lax ∧ o' = p.inMode .strict) →
                o.maxDepth = o'.maxDepth := by
            rintro _ _ ⟨p, rfl, rfl⟩
            rfl
          exact (@Agrees.modular path).map (Agrees.modular.keepElement hdepth s _ level e) _
  | _, [], _, _ :: _ => .done _
  | _, _ :: _, [], _ :: _ => .done _
  | _, [], _, [] => .done _
  | _, _ :: _, [], [] => .done _
  | _, _ :: _, _ :: _, [] => .done _

end

theorem agrees_decodeDocument (d : Document) : (s.decodeDocument d).Agrees := by
  unfold decodeDocument
  split
  · exact (Agrees.report _).andThen fun _ => .done _
  · dsimp only
    split
    · exact (Agrees.report _).andThen fun _ => .done _
    · exact (s.agrees_decodeElement _ _ _ _).andThen fun _ => .done _

/-! ## Documents -/

theorem isValid_iff (d : Document) : s.isValid d = true ↔
    ∃ r, s.decode d (.ofMode .lax) = .ok r ∧ r.2.find? Diagnostic.isError = none := by
  unfold isValid diagnostics
  cases s.decode d (.ofMode .lax) with
  | error f => simp [bind, Except.bind]
  | ok r => simp [bind, Except.bind, pure, Except.pure]

theorem validate_iff (d : Document) : s.validate d = .ok () ↔
    ∃ r, s.decode d (.ofMode .strict) = .ok r := by
  unfold validate
  cases s.decode d (.ofMode .strict) with
  | error f => simp [bind, Except.bind]
  | ok r => simp [bind, Except.bind, pure, Except.pure]

end Schema

end Conform
