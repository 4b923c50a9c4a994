import Conform.Model.Advance
import Conform.Proofs.Model.Emptiness
import Mathlib.Tactic.Linarith
/-!
# Estimated repetitions

A walk does not know how often a group occurred. It keeps the least number of repetitions and the
greatest, and every number between stands for the same children. What is known of a member when it
ends in a group gives the numbers by which the group occurred once more or several times.
-/

namespace Conform

namespace Walk

/-! ## Rounding up -/

theorem le_ceilDiv_mul (n : Nat) {d : Nat} (hd : 0 < d) : n ≤ ceilDiv n d * d := by
  have hlt := Nat.lt_div_mul_add hd (a := n + d - 1)
  unfold ceilDiv
  omega

theorem ceilDiv_mul_lt (n : Nat) {d : Nat} (hd : 0 < d) : ceilDiv n d * d < n + d := by
  have hle := Nat.div_mul_le_self (n + d - 1) d
  unfold ceilDiv
  omega

theorem ceilDiv_pos {n d : Nat} (hn : 0 < n) (hd : 0 < d) : 0 < ceilDiv n d := by
  unfold ceilDiv
  exact Nat.div_pos (by omega) hd

theorem ceilDiv_le_one {n d : Nat} (hd : 0 < d) (h : n ≤ d) : ceilDiv n d ≤ 1 := by
  have hlt : n + d - 1 < 2 * d := by omega
  have hdiv : ceilDiv n d < 2 := (Nat.div_lt_iff_lt_mul hd).2 hlt
  omega

/-- The repetitions for which a count stands, rounded up, are no more than it admits if the bounds
leave no gap. -/
theorem ceilDiv_mul_le {n d l : Nat} (hd : 0 < d) (hgap : 2 * l ≤ d + 1)
    (h : 2 ≤ ceilDiv n d) : ceilDiv n d * l ≤ n := by
  have hlt := ceilDiv_mul_lt n hd
  obtain ⟨r, hr⟩ := Nat.exists_eq_add_of_le h
  obtain ⟨d, rfl⟩ := Nat.exists_eq_add_of_lt hd
  rw [hr] at hlt ⊢
  have hdouble : 2 * ((2 + r) * l) ≤ 2 * n := by
    calc 2 * ((2 + r) * l) = (2 + r) * (2 * l) := by ring
      _ ≤ (2 + r) * (0 + d + 1 + 1) := Nat.mul_le_mul_left _ hgap
      _ ≤ 2 * n := by nlinarith [Nat.zero_le (r * d)]
  omega

end Walk

namespace Components

variable {c : Components} {b : Member → Occurs} {g : GroupId} {m : Member}

/-! ## Repetitions of groups -/

/-- Occurrences of an alternative, dealt out to repetitions of its choice. -/
theorem Times.ofChoice {k r : Nat} {u : List QName} (hchoice : (c.group g).compositor = .choice)
    (hm : m ∈ (c.group g).members) (hbounds : ∀ n ∈ (b m).max, (b m).min.toNat ≤ n.toNat)
    (h : c.Times b m k u) (hr : 1 ≤ r) (hmin : r * (b m).min.toNat ≤ k)
    (hmax : ∀ n ∈ (b m).max, k ≤ r * n.toNat) : c.Times b (.group g) r u := by
  obtain ⟨ws, rfl, rfl, hwords⟩ := h.deal hbounds hmin hmax fun hzero => by omega
  exact Times.ofList fun x hx => .choice hchoice hm (hwords x hx)

/-- Occurrences of a member, dealt out to repetitions of its sequence. What comes after it belongs
to the last of them. -/
theorem Times.ofSequence {k r : Nat} {before after : List Member} {u v : List QName}
    (hsequence : (c.group g).compositor = .sequence)
    (hmembers : (c.group g).members = before ++ m :: after)
    (hbounds : ∀ n ∈ (b m).max, (b m).min.toNat ≤ n.toNat)
    (hbefore : ∀ x ∈ before, c.Words b x []) (h : c.Times b m k u) (hafter : c.Row b after v)
    (hr : 1 ≤ r) (hseveral : 2 ≤ r → ∀ x ∈ after, c.Words b x [])
    (hmin : r * (b m).min.toNat ≤ k) (hmax : ∀ n ∈ (b m).max, k ≤ r * n.toNat) :
    c.Times b (.group g) r (u ++ v) := by
  have honce : ∀ {x y}, c.Words b m x → c.Row b after y → c.Once b (.group g) (x ++ y) := by
    intro x y hx hy
    refine .sequence hsequence ?_
    rw [hmembers]
    exact (Row.empty hbefore).append (.cons hx hy)
  obtain ⟨ws, hlength, rfl, hwords⟩ := h.deal hbounds hmin hmax fun hzero => by omega
  obtain ⟨ws, last, rfl⟩ : ∃ xs x, ws = xs ++ [x] := by
    have hne : ws ≠ [] := by
      rintro rfl
      rw [List.length_nil] at hlength
      omega
    exact ⟨_, _, (List.dropLast_append_getLast hne).symm⟩
  rw [List.length_append, List.length_singleton] at hlength
  have hfirst : c.Times b (.group g) ws.length ws.flatten := by
    refine Times.ofList fun x hx => ?_
    have hpos := List.length_pos_of_mem hx
    have hempty := honce (hwords x (List.mem_append_left _ hx))
      (Row.empty (hseveral (by omega)))
    rwa [List.append_nil] at hempty
  have hlast := (honce (hwords last (by simp)) hafter).times
  rw [← hlength, List.flatten_append, List.flatten_singleton, List.append_assoc]
  exact hfirst.append hlast

end Components

/-! ## Tallies -/

section

variable {s : Schema} {root g : GroupId} {counts ceilings counts' ceilings' : Tally} {m : Member}
  {least greatest : Nat} {u v : List QName}

/-- Every number of occurrences of a member from `least` to `greatest` stands for the children `u`,
and the tallies of a walk lie between. -/
structure Measures (s : Schema) (root : GroupId) (counts ceilings : Tally) (m : Member)
    (least greatest : Nat) (u : List QName) : Prop where
  least_le : least ≤ counts.count m
  le_greatest : counts.count m ≤ greatest
  ceiling_le : ceilings.count m ≤ greatest
  ceiling_eq_zero : counts.count m = 0 → ceilings.count m = 0
  times : ∀ k, least ≤ k → k ≤ greatest → s.Times (s.loosened root) m k u

/-- What is known of the count of a group: it goes beyond the maximum only where alternatives do. -/
structure Fits (s : Schema) (root : GroupId) (counts : Tally) (g : GroupId) (least : Nat) :
    Prop where
  least_le : g ≠ root → ∀ n ∈ (s.group g).occurs.max, least ≤ n.toNat
  count_le : ¬s.Overruns g → ∀ n ∈ (s.group g).occurs.max, counts.count (.group g) ≤ n.toNat

/-- What is known of the count of a member that ends in a group. -/
structure Ending (s : Schema) (root : GroupId) (counts : Tally) (g : GroupId) (m : Member)
    (least : Nat) : Prop where
  mem : m ∈ (s.group g).members
  least_le : (∀ n ∈ (s.loosened root m).max, least ≤ n.toNat) ∨
    (s.group g).compositor = .choice ∧ (g = root ∨ (s.group g).occurs.max = none)
  count_le : (∀ n ∈ (s.occurs m).max, counts.count m ≤ n.toNat) ∨
    ((s.group g).compositor = .choice → (s.occurs m).IsGapless) ∧
      ((s.group g).occurs.max = none ∨ s.Overruns g)

namespace Measures

theorem zero (hcount : counts.count m = 0) (hceiling : ceilings.count m = 0) :
    Measures s root counts ceilings m 0 0 [] := by
  refine ⟨Nat.zero_le _, by omega, by omega, fun _ => hceiling, fun k _ hk => ?_⟩
  obtain rfl : k = 0 := by omega
  exact .zero

theorem congr (h : Measures s root counts ceilings m least greatest u)
    (hcount : counts'.count m = counts.count m)
    (hceiling : ceilings'.count m = ceilings.count m) :
    Measures s root counts' ceilings' m least greatest u := by
  constructor
  · rw [hcount]
    exact h.least_le
  · rw [hcount]
    exact h.le_greatest
  · rw [hceiling]
    exact h.ceiling_le
  · rw [hcount, hceiling]
    exact h.ceiling_eq_zero
  · exact h.times

theorem least_le_greatest (h : Measures s root counts ceilings m least greatest u) :
    least ≤ greatest :=
  h.least_le.trans h.le_greatest

/-- A member without occurrences stands for nothing. -/
theorem eq_nil (h : Measures s root counts ceilings m least greatest u)
    (hzero : counts.count m = 0) : u = [] := by
  have hleast := h.least_le
  have htimes := h.times 0 (by omega) (by omega)
  exact htimes.eq_nil

/-- The children are a word of the member if some number in the range is admitted. -/
theorem words (h : Measures s root counts ceilings m least greatest u) (hs : s.Built)
    (hmax : ∀ n ∈ (s.loosened root m).max, least ≤ n.toNat)
    (hmin : (s.occurs m).min.toNat ≤ greatest) : s.Words (s.loosened root) m u := by
  have hrange := h.least_le_greatest
  refine .intro (n := max least (s.occurs m).min.toNat) ⟨?_, fun n hn => ?_⟩
    (h.times _ (by omega) (by omega))
  · rw [Components.min_loosened]
    omega
  · have hle := hmax n hn
    have hbounds := hs.min_le_loosened root m n hn
    rw [Components.min_loosened] at hbounds
    omega

/-- Several repetitions more. -/
theorem add {r₀ r₁ more : Nat} (h : Measures s root counts ceilings (.group g) least greatest u)
    (htimes : ∀ r, r₀ ≤ r → r ≤ r₁ → s.Times (s.loosened root) (.group g) r v)
    (hcount : counts'.count (.group g) = counts.count (.group g) + more)
    (hceiling : ceilings'.count (.group g) ≤ ceilings.count (.group g) + r₁)
    (hpos : 0 < more) (hlow : r₀ ≤ more) (hhigh : more ≤ r₁) :
    Measures s root counts' ceilings' (.group g) (least + r₀) (greatest + r₁) (u ++ v) := by
  have hleast := h.least_le
  have hgreatest := h.le_greatest
  have hceil := h.ceiling_le
  refine ⟨by omega, by omega, by omega, fun hzero => by omega, fun k hk hk' => ?_⟩
  obtain ⟨i, r, rfl, hi, hi', hr, hr'⟩ : ∃ i r, k = i + r ∧ least ≤ i ∧ i ≤ greatest ∧
      r₀ ≤ r ∧ r ≤ r₁ := by
    by_cases hsmall : k ≤ least + r₁
    · exact ⟨least, k - least, by omega, by omega, by omega, by omega, by omega⟩
    · exact ⟨k - r₁, r₁, by omega, by omega, by omega, by omega, by omega⟩
  exact (h.times i hi hi').append (htimes r hr hr')

end Measures

namespace Fits

theorem zero (hcount : counts.count (.group g) = 0) : Fits s root counts g 0 :=
  ⟨fun _ _ _ => Nat.zero_le _, fun _ n _ => by omega⟩

theorem congr (h : Fits s root counts g least)
    (hcount : counts'.count (.group g) = counts.count (.group g)) :
    Fits s root counts' g least := by
  refine ⟨h.least_le, ?_⟩
  rw [hcount]
  exact h.count_le

/-- Repetitions more, where the maximum was not reached. -/
theorem add {r₀ more : Nat} (hlow : least ≤ counts.count (.group g))
    (hopen : ∀ n ∈ (s.group g).occurs.max, counts.count (.group g) < n.toNat)
    (hcount : counts'.count (.group g) = counts.count (.group g) + more)
    (hleast : r₀ = 1 ∨ g = root ∨ (s.group g).occurs.max = none)
    (hmore : more = 1 ∨ (s.group g).occurs.max = none ∨ s.Overruns g) :
    Fits s root counts' g (least + r₀) := by
  constructor
  · intro hroot n hn
    have hlt := hopen n hn
    rcases hleast with rfl | rfl | hnone
    · omega
    · exact absurd rfl hroot
    · rw [hnone] at hn
      cases hn
  · intro hno n hn
    have hlt := hopen n hn
    rcases hmore with rfl | hnone | hyes
    · omega
    · rw [hnone] at hn
      cases hn
    · exact absurd hyes hno

/-- A group ends in the group around it. -/
theorem ending {sub : GroupId} (h : Fits s root counts sub least) (hs : s.Built)
    (hg : s.IsGapless root) (hin : s.Contains root (.group g))
    (hsub : .group sub ∈ (s.group g).members) : Ending s root counts g (.group sub) least := by
  refine ⟨hsub, .inl ?_, ?_⟩
  · rw [Components.loosened_group]
    exact h.least_le (hin.ne_root hs.forest hsub)
  · by_cases hover : s.Overruns sub
    · refine .inr ⟨fun hchoice => hg.group g sub hin hchoice hsub hover, ?_⟩
      by_cases hmax : (s.group g).occurs.max = none
      · exact .inl hmax
      · exact .inr (.group hmax hsub hover)
    · exact .inl (h.count_le hover)

end Fits

/-! ## The end of a member -/

theorem div_mul_min_le {k l h : Nat} (hk : k ≤ h) (hl : l ≤ h) :
    max 1 (k / max 1 l) * l ≤ h := by
  rcases Nat.le_total (k / max 1 l) 1 with hle | hle
  · rw [Nat.max_eq_left hle, Nat.one_mul]
    exact hl
  · rw [Nat.max_eq_right hle]
    calc k / max 1 l * l ≤ k / max 1 l * max 1 l := Nat.mul_le_mul_left _ (Nat.le_max_right _ _)
      _ ≤ k := Nat.div_mul_le_self _ _
      _ ≤ h := hk

namespace Ending

/-- The repetitions of a choice for which an alternative stands. -/
theorem times_choice {more top : Nat} (h : Ending s root counts g m least) (hs : s.Built)
    (hpos : ∀ n ∈ (s.occurs m).max, 0 < n.toNat)
    (hm : Measures s root counts ceilings m least greatest u)
    (hchoice : (s.group g).compositor = .choice) (hcount : 0 < counts.count m)
    (hmin : (s.occurs m).min.toNat ≤ greatest) (htop : top ≤ greatest)
    (hnone : (s.occurs m).max = none → more = 1)
    (hsome : ∀ n ∈ (s.occurs m).max, more = Walk.ceilDiv (counts.count m) n.toNat) :
    ∃ r₀, (∀ r, r₀ ≤ r → r ≤ max more (max 1 (top / max 1 (s.occurs m).min.toNat)) →
        s.Times (s.loosened root) (.group g) r u) ∧ 0 < more ∧ r₀ ≤ more ∧
      (r₀ = 1 ∨ g = root ∨ (s.group g).occurs.max = none) ∧
      (more = 1 ∨ (s.group g).occurs.max = none ∨ s.Overruns g) := by
  have hrange := h.least_le
  have hcountle := h.count_le
  have hlow := hm.least_le
  have hhigh := hm.le_greatest
  have hmore : 0 < more := by
    cases hmax : (s.occurs m).max with
    | none =>
        rw [hnone hmax]
        exact Nat.one_pos
    | some n =>
        rw [hsome n hmax]
        exact Walk.ceilDiv_pos hcount (hpos n hmax)
  have hone : (∀ n ∈ (s.occurs m).max, counts.count m ≤ n.toNat) → more = 1 := by
    intro hle
    cases hmax : (s.occurs m).max with
    | none => exact hnone hmax
    | some n =>
        have hle := Walk.ceilDiv_le_one (hpos n hmax) (hle n hmax)
        rw [← hsome n hmax] at hle
        omega
  have hspan : more * (s.occurs m).min.toNat ≤ greatest := by
    by_cases hsingle : more = 1
    · rw [hsingle, Nat.one_mul]
      exact hmin
    rcases hcountle with hle | ⟨hgap, -⟩
    · exact absurd (hone hle) hsingle
    · cases hmax : (s.occurs m).max with
      | none => exact absurd (hnone hmax) hsingle
      | some n =>
          have hceil := hsome n hmax
          have hle := Walk.ceilDiv_mul_le (hpos n hmax) (hgap hchoice n hmax)
            (by omega : 2 ≤ Walk.ceilDiv (counts.count m) n.toNat)
          rw [← hceil] at hle
          omega
  have htimes : ∀ r, 1 ≤ r → (∀ n ∈ (s.loosened root m).max, least ≤ r * n.toNat) →
      r ≤ max more (max 1 (top / max 1 (s.occurs m).min.toNat)) →
      s.Times (s.loosened root) (.group g) r u := by
    intro r hr hmax hle
    have hminr : r * (s.occurs m).min.toNat ≤ greatest := by
      rcases Nat.le_total more (max 1 (top / max 1 (s.occurs m).min.toNat)) with hcmp | hcmp
      · rw [Nat.max_eq_right hcmp] at hle
        exact (Nat.mul_le_mul_right _ hle).trans (div_mul_min_le htop hmin)
      · rw [Nat.max_eq_left hcmp] at hle
        exact (Nat.mul_le_mul_right _ hle).trans hspan
    refine Components.Times.ofChoice (k := max least (r * (s.occurs m).min.toNat)) hchoice h.mem
      (hs.min_le_loosened root m) (hm.times _ (Nat.le_max_left _ _) (by omega)) hr ?_ ?_
    · rw [Components.min_loosened]
      exact Nat.le_max_right _ _
    · intro n hn
      have hbounds := hs.min_le_loosened root m n hn
      rw [Components.min_loosened] at hbounds
      exact Nat.max_le.2 ⟨hmax n hn, Nat.mul_le_mul_left r hbounds⟩
  have hover : more = 1 ∨ (s.group g).occurs.max = none ∨ s.Overruns g := by
    rcases hcountle with hle | ⟨-, hover⟩
    · exact .inl (hone hle)
    · exact .inr hover
  rcases hrange with hle | ⟨-, hroot⟩
  · refine ⟨1, fun r hr => htimes r hr fun n hn => ?_, hmore, hmore, .inl rfl, hover⟩
    calc least ≤ n.toNat := hle n hn
      _ = 1 * n.toNat := (Nat.one_mul _).symm
      _ ≤ r * n.toNat := Nat.mul_le_mul_right _ hr
  · refine ⟨more, fun r hr => htimes r (by omega) fun n hn => ?_, hmore, Nat.le_refl _,
      .inr hroot, hover⟩
    have hmax := Components.mem_max_of_loosened hn
    calc least ≤ counts.count m := hlow
      _ ≤ more * n.toNat := by
        rw [hsome n hmax]
        exact Walk.le_ceilDiv_mul _ (hpos n hmax)
      _ ≤ r * n.toNat := Nat.mul_le_mul_right _ hr

/-- The repetitions of a sequence for which the first member that has any occurrences stands. -/
theorem times_sequence (h : Ending s root counts g m least) (more top : Nat)
    {before after : List Member} (hs : s.Built)
    (hm : Measures s root counts ceilings m least greatest u)
    (hsequence : (s.group g).compositor = .sequence)
    (hmembers : (s.group g).members = before ++ m :: after)
    (hbefore : ∀ x ∈ before, s.Words (s.loosened root) x [])
    (hafter : s.Row (s.loosened root) after v)
    (hmin : (s.occurs m).min.toNat ≤ greatest) (htop : top ≤ greatest)
    (hmore : more * (s.occurs m).min.toNat ≤ greatest)
    (hseveral : 2 ≤ max more (max 1 (top / max 1 (s.occurs m).min.toNat)) →
      ∀ x ∈ after, s.Words (s.loosened root) x []) :
    ∀ r, 1 ≤ r → r ≤ max more (max 1 (top / max 1 (s.occurs m).min.toNat)) →
      s.Times (s.loosened root) (.group g) r (u ++ v) := by
  intro r hr hle
  have hleast : ∀ n ∈ (s.loosened root m).max, least ≤ n.toNat := by
    rcases h.least_le with hleast | ⟨hchoice, -⟩
    · exact hleast
    · rw [hsequence] at hchoice
      cases hchoice
  have hrange := hm.least_le_greatest
  have hminr : r * (s.occurs m).min.toNat ≤ greatest := by
    rcases Nat.le_total more (max 1 (top / max 1 (s.occurs m).min.toNat)) with hcmp | hcmp
    · rw [Nat.max_eq_right hcmp] at hle
      exact (Nat.mul_le_mul_right _ hle).trans (div_mul_min_le htop hmin)
    · rw [Nat.max_eq_left hcmp] at hle
      exact (Nat.mul_le_mul_right _ hle).trans hmore
  refine Components.Times.ofSequence (k := max least (r * (s.occurs m).min.toNat)) hsequence
    hmembers (hs.min_le_loosened root m) hbefore (hm.times _ (Nat.le_max_left _ _) (by omega))
    hafter hr (fun htwo => hseveral (by omega)) ?_ ?_
  · rw [Components.min_loosened]
    exact Nat.le_max_right _ _
  · intro n hn
    have hbounds := hs.min_le_loosened root m n hn
    rw [Components.min_loosened] at hbounds
    refine Nat.max_le.2 ⟨?_, Nat.mul_le_mul_left r hbounds⟩
    calc least ≤ n.toNat := hleast n hn
      _ = 1 * n.toNat := (Nat.one_mul _).symm
      _ ≤ r * n.toNat := Nat.mul_le_mul_right _ hr

end Ending

end

end Conform
