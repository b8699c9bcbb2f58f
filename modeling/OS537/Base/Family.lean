import Mathlib.Data.Nat.Basic
import Mathlib.Tactic.ByContra

/-!
# Families with groups

Members of a family hang on other members, all of them below a root. Every member belongs to a
group; it follows the member it hangs on if both are of one group, and it is the founder of its
group if it does not. With one founder for each group, a founder on which nobody hangs is alone
in its group. New members join or found a group, members on which nobody hangs may leave, and
those that hang on a member may all be hung on the root.
-/

namespace OS537.Families

variable {α β : Type*}

/-- The member hangs on one of its own group. -/
def Follows (parent : α → Option α) (group : α → β) (x : α) : Prop :=
  ∃ above, parent x = some above ∧ group above = group x

structure Family (root : α) (member : α → Prop) (parent : α → Option α) (group : α → β) :
    Prop where
  root_member : member root
  root_parent : parent root = none
  parent_member : ∀ child above, parent child = some above → member child ∧ member above
  ranked : ∃ rank : α → ℕ, rank root = 0 ∧ (∀ x, x ≠ root → 0 < rank x) ∧
    ∀ child above, parent child = some above → rank above < rank child
  founder_unique : ∀ x y, member x → member y → ¬ Follows parent group x →
    ¬ Follows parent group y → group x = group y → x = y

variable {root x above : α} {member member' : α → Prop} {parent parent' : α → Option α}
  {group group' : α → β}

theorem Family.alone (h : Family root member parent group) (hmember : member x)
    (hfounder : ¬ Follows parent group x) (hleaf : ∀ child, parent child ≠ some x) {y : α}
    (hy : member y) (hgroup : group y = group x) : y = x := by
  obtain ⟨rank, -, -, hrank⟩ := h.ranked
  -- along the members above `y` in its group: the last of them is `x`, on which nobody hangs
  induction hn : rank y using Nat.strong_induction_on generalizing y with
  | _ n ih =>
    by_cases hfollows : Follows parent group y
    · obtain ⟨above, hparent, habove⟩ := hfollows
      have hlt : rank above < n := hn ▸ hrank y above hparent
      have heq := ih _ hlt (h.parent_member y above hparent).2 (habove.trans hgroup) rfl
      rw [heq] at hparent
      exact absurd hparent (hleaf y)
    · exact h.founder_unique y x hy hmember hfollows hfounder hgroup

theorem follows_congr (hparent : parent' x = parent x) (hx : group' x = group x)
    (hgroup : ∀ above, parent x = some above → group' above = group above) :
    Follows parent' group' x ↔ Follows parent group x := by
  unfold Follows
  rw [hparent, hx]
  constructor
  · rintro ⟨above, habove, heq⟩
    exact ⟨above, habove, (hgroup above habove).symm.trans heq⟩
  · rintro ⟨above, habove, heq⟩
    exact ⟨above, habove, (hgroup above habove).trans heq⟩

/-- Only the groups of members count. -/
theorem Family.congr_group (h : Family root member parent group)
    (hgroup : ∀ y, member y → group' y = group y) : Family root member parent group' where
  root_member := h.root_member
  root_parent := h.root_parent
  parent_member := h.parent_member
  ranked := h.ranked
  founder_unique y z hy hz hfirst hsecond heq := by
    have hfollows {x : α} (hx : member x) : Follows parent group' x ↔ Follows parent group x :=
      follows_congr rfl (hgroup x hx) fun up hup ↦ hgroup up (h.parent_member x up hup).2
    rw [hfollows hy] at hfirst
    rw [hfollows hz] at hsecond
    rw [hgroup y hy, hgroup z hz] at heq
    exact h.founder_unique y z hy hz hfirst hsecond heq

/-- A new member hangs on `above`, in its group or in a new one. -/
theorem Family.enter [DecidableEq α] (h : Family root member parent group) (hnew : ¬ member x)
    (habove : member above) (hmember : ∀ y, member' y ↔ member y ∨ y = x)
    (hparent : ∀ y, y ≠ x → parent' y = parent y) (hx : parent' x = some above)
    (hgroup : ∀ y, y ≠ x → group' y = group y)
    (hplace : group' x = group above ∨ ∀ y, member y → group y ≠ group' x) :
    Family root member' parent' group' := by
  have hne {y : α} (hy : member y) : y ≠ x := by
    rintro rfl
    exact hnew hy
  have hold {child up : α} (hchild : parent' child = some up) (hother : child ≠ x) :
      parent child = some up := hparent child hother ▸ hchild
  have hfollows {y : α} (hy : y ≠ x) : Follows parent' group' y ↔ Follows parent group y := by
    apply follows_congr (hparent y hy) (hgroup y hy)
    intro up hup
    exact hgroup up (hne (h.parent_member y up hup).2)
  -- a new member that does not follow is the only one of its group
  have hfounds (hfounder : ¬ Follows parent' group' x) {y : α} (hy : member y) :
      group' y ≠ group' x := by
    have hother : group' x ≠ group above := fun heq ↦
      hfounder ⟨above, hx, (hgroup above (hne habove)).trans heq.symm⟩
    rw [hgroup y (hne hy)]
    exact hplace.resolve_left hother y hy
  constructor
  · exact (hmember root).mpr (Or.inl h.root_member)
  · rw [hparent root (hne h.root_member), h.root_parent]
  · intro child up hchild
    rw [hmember, hmember]
    by_cases hother : child = x
    · rw [hother, hx] at hchild
      cases hchild
      exact ⟨Or.inr hother, Or.inl habove⟩
    · obtain ⟨hlow, hhigh⟩ := h.parent_member child up (hold hchild hother)
      exact ⟨Or.inl hlow, Or.inl hhigh⟩
  · obtain ⟨rank, hzero, hpos, hrank⟩ := h.ranked
    refine ⟨fun y ↦ if y = x then rank above + 1 else rank y, ?_, ?_, ?_⟩ <;> dsimp only
    · rw [if_neg (hne h.root_member), hzero]
    · intro y hy
      split
      · exact Nat.succ_pos _
      · exact hpos y hy
    · intro child up hchild
      by_cases hother : child = x
      · rw [hother, hx] at hchild
        cases hchild
        rw [if_neg (hne habove), if_pos hother]
        exact Nat.lt_succ_self _
      · have hup := hold hchild hother
        rw [if_neg (hne (h.parent_member child up hup).2), if_neg hother]
        exact hrank child up hup
  · intro y z hy hz hfirst hsecond heq
    rcases (hmember y).mp hy with hy | rfl
    · rcases (hmember z).mp hz with hz | rfl
      · rw [hfollows (hne hy)] at hfirst
        rw [hfollows (hne hz)] at hsecond
        rw [hgroup y (hne hy), hgroup z (hne hz)] at heq
        exact h.founder_unique y z hy hz hfirst hsecond heq
      · exact absurd heq (hfounds hsecond hy)
    · rcases (hmember z).mp hz with hz | rfl
      · exact absurd heq.symm (hfounds hfirst hz)
      · rfl

/-- A member on which nobody hangs leaves. -/
theorem Family.leave (h : Family root member parent group) (hroot : x ≠ root)
    (hleaf : ∀ child, parent child ≠ some x) (hmember : ∀ y, member' y ↔ member y ∧ y ≠ x)
    (hparent : ∀ y, y ≠ x → parent' y = parent y) (hnone : parent' x = none) :
    Family root member' parent' group := by
  have hold (child above : α) (hchild : parent' child = some above) :
      child ≠ x ∧ parent child = some above := by
    have hne : child ≠ x := by
      rintro rfl
      rw [hnone] at hchild
      cases hchild
    exact ⟨hne, hparent child hne ▸ hchild⟩
  constructor
  · exact (hmember root).mpr ⟨h.root_member, hroot.symm⟩
  · rw [hparent root hroot.symm, h.root_parent]
  · intro child above hchild
    obtain ⟨hne, hchild⟩ := hold child above hchild
    obtain ⟨hlow, hhigh⟩ := h.parent_member child above hchild
    refine ⟨(hmember child).mpr ⟨hlow, hne⟩, (hmember above).mpr ⟨hhigh, ?_⟩⟩
    rintro rfl
    exact hleaf child hchild
  · obtain ⟨rank, hzero, hpos, hrank⟩ := h.ranked
    exact ⟨rank, hzero, hpos,
      fun child above hchild ↦ hrank child above (hold child above hchild).2⟩
  · intro y z hy hz hfirst hsecond hgroup
    obtain ⟨hy, hyx⟩ := (hmember y).mp hy
    obtain ⟨hz, hzx⟩ := (hmember z).mp hz
    rw [follows_congr (hparent y hyx) rfl fun _ _ ↦ rfl] at hfirst
    rw [follows_congr (hparent z hzx) rfl fun _ _ ↦ rfl] at hsecond
    exact h.founder_unique y z hy hz hfirst hsecond hgroup

/-- Those that hang on `x` are hung on the root. They are of other groups, or all of them are in
the group of the root. -/
theorem Family.rehang [DecidableEq α] (h : Family root member parent group)
    (hshared : ∀ child, parent child = some x → group child = group x → group x = group root)
    (hparent : ∀ y, parent' y = if parent y = some x then some root else parent y) :
    Family root member parent' group := by
  have hne {y : α} (hy : parent y = some x) : y ≠ root := by
    rintro rfl
    rw [h.root_parent] at hy
    cases hy
  have hmoved {y : α} (hy : parent y = some x) : parent' y = some root := by
    rw [hparent, if_pos hy]
  have hkept {y : α} (hy : parent y ≠ some x) : parent' y = parent y := by
    rw [hparent, if_neg hy]
  have hroot : ¬ Follows parent group root := by
    rintro ⟨above, habove, -⟩
    rw [h.root_parent] at habove
    cases habove
  have hfollows (y : α) : Follows parent' group y ↔ Follows parent group y := by
    by_cases hy : parent y = some x
    · have hmember := (h.parent_member y x hy).1
      have hnew : Follows parent' group y ↔ group root = group y := by
        unfold Follows
        rw [hmoved hy]
        simp
      have hold : Follows parent group y ↔ group x = group y := by
        unfold Follows
        rw [hy]
        simp
      rw [hnew, hold]
      constructor
      · intro heq
        -- else `y` and the root would both be founders of the group of the root
        by_contra hother
        exact hne hy (h.founder_unique y root hmember h.root_member (mt hold.mp hother) hroot
          heq.symm)
      · intro heq
        exact (hshared y hy heq.symm).symm.trans heq
    · exact follows_congr (hkept hy) rfl fun _ _ ↦ rfl
  have hx (hchild : parent root = some x) : False := hne hchild rfl
  constructor
  · exact h.root_member
  · rw [hkept (fun hchild ↦ hx hchild), h.root_parent]
  · intro child above hchild
    by_cases hold : parent child = some x
    · rw [hmoved hold] at hchild
      cases hchild
      exact ⟨(h.parent_member child x hold).1, h.root_member⟩
    · rw [hkept hold] at hchild
      exact h.parent_member child above hchild
  · obtain ⟨rank, hzero, hpos, hrank⟩ := h.ranked
    refine ⟨rank, hzero, hpos, fun child above hchild ↦ ?_⟩
    by_cases hold : parent child = some x
    · rw [hmoved hold] at hchild
      cases hchild
      rw [hzero]
      exact hpos child (hne hold)
    · rw [hkept hold] at hchild
      exact hrank child above hchild
  · intro y z hy hz hfirst hsecond
    rw [hfollows] at hfirst hsecond
    exact h.founder_unique y z hy hz hfirst hsecond

end OS537.Families
