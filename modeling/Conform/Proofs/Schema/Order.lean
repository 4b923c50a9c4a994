import Conform.Proofs.Schema.Calls
/-!
# The order of groups

A visit adds groups that are not finished yet, each once, and all groups below it before the group
itself. So the order has every group exactly once, after all groups that stand in it at any depth.
-/

namespace Conform.Components

variable {c : Components} {trail finished finished' order : List GroupId} {id g sub : GroupId}

/-- A step that keeps a property keeps it in a row of steps. -/
theorem foldlM_keeps {α β : Type} {P : β → Prop} {step : β → α → Except Failure β}
    {xs : List α} (hstep : ∀ x ∈ xs, ∀ {b b'}, step b x = .ok b' → P b → P b') :
    ∀ {b b' : β}, xs.foldlM step b = .ok b' → P b → P b' := by
  induction xs with
  | nil =>
      intro b b' h hb
      cases h
      exact hb
  | cons x rest ih =>
      intro b b' h hb
      simp only [List.foldlM_cons, bind, Except.bind] at h
      split at h
      · cases h
      · rename_i next hnext
        apply ih (fun y hy => hstep y (List.mem_cons_of_mem _ hy)) h
        exact hstep x List.mem_cons_self hnext hb

/-- What is finished within a trail: groups that are there, each of them once and none of the
trail. -/
structure Finished (c : Components) (trail finished : List GroupId) : Prop where
  nodup : finished.Nodup
  apart : ∀ g ∈ trail, g ∉ finished
  isThere : ∀ g ∈ finished, g.index < c.groups.size

theorem finished_nil (c : Components) : c.Finished [] [] :=
  ⟨List.nodup_nil, nofun, nofun⟩

/-- A group that is not finished is open while the groups in it are visited. -/
theorem Finished.push (h : c.Finished trail finished) (hid : id ∉ finished) :
    c.Finished (trail ++ [id]) finished where
  nodup := h.nodup
  apart := by
    intro g hg
    rcases List.mem_append.1 hg with hg | hg
    · exact h.apart g hg
    · rw [List.mem_singleton.1 hg]
      exact hid
  isThere := h.isThere

/-- After the groups in it the group itself is finished. -/
theorem Finished.pop (h : c.Finished (trail ++ [id]) finished) (htrail : id ∉ trail)
    (hid : id.index < c.groups.size) : c.Finished trail (finished ++ [id]) where
  nodup := by
    have hnot : id ∉ finished := h.apart id (by simp)
    exact List.nodup_append.2 ⟨h.nodup, List.nodup_singleton id, fun a ha b hb heq =>
      hnot (by rwa [← List.mem_singleton.1 hb, ← heq])⟩
  apart := by
    intro g hg hin
    rcases List.mem_append.1 hin with hin | hin
    · exact h.apart g (List.mem_append_left _ hg) hin
    · exact htrail (List.mem_singleton.1 hin ▸ hg)
  isThere := by
    intro g hg
    rcases List.mem_append.1 hg with hg | hg
    · exact h.isThere g hg
    · rwa [List.mem_singleton.1 hg]

theorem Forest.index_lt_of_nested (hc : c.Forest) (hsub : sub ∈ c.nested id) :
    sub.index < c.groups.size := by
  obtain ⟨m, hm, hgroup⟩ := List.mem_filterMap.1 hsub
  cases m with
  | element e => cases hgroup
  | wildcard w => cases hgroup
  | group x =>
      cases hgroup
      exact of_decide_eq_true (hc.isThere hm)

/-- A visit finishes no group twice and none that is open. -/
theorem Forest.visit_finished (hc : c.Forest) : ∀ {fuel : Nat} {trail : List GroupId}
    {id : GroupId} {finished finished' : List GroupId},
    c.visit fuel trail id finished = .ok finished' → id.index < c.groups.size →
      c.Finished trail finished → c.Finished trail finished'
  | 0, _, _, _, _, h => by simp [visit] at h
  | fuel + 1, trail, id, finished, finished', h => by
      intro hid hfinished
      simp only [visit] at h
      split at h
      · cases h
        exact hfinished
      rename_i hnew
      split at h
      · cases h
      rename_i hclosed
      simp only [bind, Except.bind, pure, Except.pure] at h
      split at h
      · cases h
      rename_i below hbelow
      cases h
      have hopen : c.Finished (trail ++ [id]) below :=
        foldlM_keeps (P := c.Finished (trail ++ [id]))
          (fun sub hsub _ _ hvisit => hc.visit_finished hvisit (hc.index_lt_of_nested hsub))
          hbelow (hfinished.push hnew)
      exact hopen.pop hclosed hid

/-- The groups that come before a group have every group that stands in it at any depth. -/
theorem NestedFirst.mem_of_transGen {before after : List GroupId}
    (h : c.NestedFirst (before ++ g :: after)) (hsub : Relation.TransGen c.IsNestedIn sub g) :
    sub ∈ before := by
  have hpre : before ++ [g] <+: before ++ g :: after := ⟨after, by simp⟩
  have hdirect : ∀ x y, c.IsNestedIn x y → x ∈ c.nested y :=
    fun x y hin => List.mem_filterMap.2 ⟨_, hin, rfl⟩
  -- from the group down: what stands in a group that is before stands before as well
  induction hsub using Relation.TransGen.head_induction_on with
  | single hin => exact h before g hpre _ (hdirect _ _ hin)
  | head hin _ ih =>
      have hfirst : c.NestedFirst before := h.of_prefix (List.prefix_append _ _)
      exact hfirst.mem_of_mem ih (hdirect _ _ hin)

/-- The order has every group exactly once. -/
theorem Forest.groupOrder_exact (hc : c.Forest) (h : c.groupOrder = .ok order) :
    order.Nodup ∧ ∀ id : GroupId, id ∈ order ↔ id.index < c.groups.size := by
  have hfinished : c.Finished [] order :=
    foldlM_keeps (P := c.Finished [])
      (fun i hi _ _ hvisit => hc.visit_finished hvisit (List.mem_range.1 hi)) h (finished_nil c)
  exact ⟨hfinished.nodup, fun id => ⟨hfinished.isThere id, (groupOrder_ok h).2 id⟩⟩

end Conform.Components
