import Mathlib.Data.Fintype.Pigeonhole

/-!
# Forests of directories

Directories whose entries stand in numbered slots, as file systems keep them: the first two slots
name the directory itself and its parent, the others name the objects below it, and a slot that
has become free may still carry its old name. `Forest.Valid` is the discipline that makes a name
denote one object and an object have one name. It is kept by putting a new object into the first
free slot of a directory in which its name is not in use, and by freeing the slot of an object
that is not a directory.
-/

namespace OS537

/-- Directories over identifiers `Id` and names `Name`. -/
structure Forest (Id Name : Type*) where
  allocated : Id → Prop
  directory : Id → Prop
  /-- The object a slot names; `none` for a free slot. -/
  target : Id → ℕ → Option Id
  /-- The name a slot carries, also when it is free. -/
  named : Id → ℕ → Name → Prop

namespace Forest

variable {Id Name : Type*}

/-- The entry of `dir` in a slot behind the first two names `i`. -/
structure Names (forest : Forest Id Name) (slots : ℕ) (dir : Id) (slot : ℕ) (i : Id) : Prop where
  directory : forest.directory dir
  low : 2 ≤ slot
  high : slot < slots
  target : forest.target dir slot = some i

/-- The discipline of a forest with the given root, with names `selfName` and `parentName` for the
first two slots and with `slots` slots in each directory. -/
structure Valid (forest : Forest Id Name) (root : Id) (selfName parentName : Name) (slots : ℕ) :
    Prop where
  root_directory : forest.directory root
  directory_allocated : ∀ dir, forest.directory dir → forest.allocated dir
  name_unique : ∀ dir slot first second, forest.directory dir → forest.named dir slot first →
    forest.named dir slot second → first = second
  self_entry : ∀ dir, forest.directory dir →
    forest.named dir 0 selfName ∧ forest.target dir 0 = some dir
  parent_entry : ∀ dir, forest.directory dir → forest.named dir 1 parentName ∧
    ∃ above, forest.target dir 1 = some above ∧ forest.directory above
  entry : ∀ dir slot i, forest.Names slots dir slot i → i ≠ root ∧ forest.allocated i ∧
    ∃ name, forest.named dir slot name ∧ name ≠ selfName ∧ name ≠ parentName
  /-- No slot before that of an entry carries its name, so a search from the start finds it. -/
  first : ∀ dir slot i name, forest.Names slots dir slot i → forest.named dir slot name →
    ∀ before < slot, ¬ forest.named dir before name
  named_by : ∀ i, forest.allocated i → i ≠ root → ∃ dir slot, forest.Names slots dir slot i
  named_once : ∀ dir slot dir' slot' i, forest.Names slots dir slot i →
    forest.Names slots dir' slot' i → dir = dir' ∧ slot = slot'

variable {forest : Forest Id Name} {root : Id} {selfName parentName : Name} {slots : ℕ}

/-- A directory has a free slot when there are more slots than objects. -/
theorem Valid.exists_free (h : forest.Valid root selfName parentName slots) {code : Id → ℕ}
    (hcode : Function.Injective code) {bound : ℕ}
    (hbound : ∀ i, forest.allocated i → code i < bound) (hslots : bound + 2 < slots) {dir : Id}
    (hdir : forest.directory dir) :
    ∃ slot, 2 ≤ slot ∧ slot < slots ∧ forest.target dir slot = none := by
  by_contra hfull
  push Not at hfull
  have hentry (slot : Fin (bound + 1)) : ∃ i, forest.Names slots dir (slot + 2) i := by
    have hlt : (slot : ℕ) + 2 < slots := by
      have hslot := slot.isLt
      omega
    obtain ⟨i, hi⟩ := Option.ne_none_iff_exists'.mp (hfull (slot + 2) (by omega) hlt)
    exact ⟨i, hdir, by omega, hlt, hi⟩
  choose object hobject using hentry
  have hlt (slot : Fin (bound + 1)) : code (object slot) < bound :=
    hbound _ (h.entry _ _ _ (hobject slot)).2.1
  obtain ⟨first, second, hne, heq⟩ := Fintype.exists_ne_map_eq_of_card_lt
    (fun slot ↦ (⟨code (object slot), hlt slot⟩ : Fin bound)) (by simp)
  have hsame : object first = object second := hcode (congrArg Fin.val heq)
  have hslot := (h.named_once _ _ _ _ _ (hobject first) (hsame ▸ hobject second)).2
  apply hne
  apply Fin.ext
  omega

/-- In a directory a name stands in one entry at most, the first two slots included. -/
theorem Valid.entry_unique (h : forest.Valid root selfName parentName slots) {dir : Id}
    {name : Name} {first second : ℕ} (hdir : forest.directory dir)
    (hfirst : first < slots) (hsecond : second < slots)
    (hfirstLive : forest.target dir first ≠ none) (hsecondLive : forest.target dir second ≠ none)
    (hfirstName : forest.named dir first name) (hsecondName : forest.named dir second name)
    (hdistinct : selfName ≠ parentName) : first = second := by
  have hearlier {early late : ℕ} (hlt : early < late) (hlate : late < slots)
      (hlive : forest.target dir late ≠ none) (hearlyName : forest.named dir early name)
      (hlateName : forest.named dir late name) : False := by
    by_cases hlow : 2 ≤ late
    · obtain ⟨i, hi⟩ := Option.ne_none_iff_exists'.mp hlive
      exact h.first dir late i name ⟨hdir, hlow, hlate, hi⟩ hlateName early hlt hearlyName
    · have hzero : early = 0 := by omega
      have hone : late = 1 := by omega
      subst hzero hone
      apply hdistinct
      rw [h.name_unique dir 0 selfName name hdir (h.self_entry dir hdir).1 hearlyName,
        h.name_unique dir 1 parentName name hdir (h.parent_entry dir hdir).1 hlateName]
  by_contra hne
  rcases Nat.lt_or_gt_of_ne hne with hlt | hlt
  · exact hearlier hlt hsecond hsecondLive hfirstName hsecondName
  · exact hearlier hlt hfirst hfirstLive hsecondName hfirstName

/-! ## Creating an object -/

section Update

variable [DecidableEq Id]

/-- The object `i` gets the name `name` in a slot of `dir`. If it is a directory, it starts with
its own two entries and with free slots that carry any names. -/
def create (forest : Forest Id Name) (selfName parentName : Name) (dir : Id) (slot : ℕ)
    (name : Name) (i : Id) (isDirectory : Bool) (stale : ℕ → Name → Prop) : Forest Id Name where
  allocated j := j = i ∨ forest.allocated j
  directory j := if j = i then isDirectory = true else forest.directory j
  target d t :=
    if d = i then if t = 0 then some i else if t = 1 then some dir else none
    else if d = dir ∧ t = slot then some i else forest.target d t
  named d t n :=
    if d = i then if t = 0 then n = selfName else if t = 1 then n = parentName else stale t n
    else if d = dir ∧ t = slot then n = name else forest.named d t n

variable {dir i : Id} {slot : ℕ} {name : Name} {isDirectory : Bool} {stale : ℕ → Name → Prop}

/-- A place for a new object: a free slot of a directory behind used ones, a name that no entry of
the directory has, and an identifier that is not in use. -/
structure Place (forest : Forest Id Name) (selfName parentName : Name) (slots : ℕ) (dir : Id)
    (slot : ℕ) (name : Name) (i : Id) : Prop where
  directory : forest.directory dir
  fresh : ¬ forest.allocated i
  low : 2 ≤ slot
  high : slot < slots
  free : forest.target dir slot = none
  used : ∀ before < slot, forest.target dir before ≠ none
  unused_name : ∀ other < slots, forest.target dir other ≠ none → ¬ forest.named dir other name
  name_ne_self : name ≠ selfName
  name_ne_parent : name ≠ parentName

theorem create_directory_of_ne {j : Id} (hj : j ≠ i) :
    (forest.create selfName parentName dir slot name i isDirectory stale).directory j ↔
      forest.directory j := by
  unfold create
  simp only [if_neg hj]

theorem create_directory_new :
    (forest.create selfName parentName dir slot name i isDirectory stale).directory i ↔
      isDirectory = true := by
  unfold create
  simp only [if_true]

theorem create_target_here (hdir : dir ≠ i) :
    (forest.create selfName parentName dir slot name i isDirectory stale).target dir slot =
      some i := by
  unfold create
  simp only [if_neg hdir, and_self, if_true]

theorem create_target_other {d : Id} {t : ℕ} (hd : d ≠ i) (hplace : ¬ (d = dir ∧ t = slot)) :
    (forest.create selfName parentName dir slot name i isDirectory stale).target d t =
      forest.target d t := by
  unfold create
  simp only [if_neg hd, if_neg hplace]

theorem create_named_here (hdir : dir ≠ i) (other : Name) :
    (forest.create selfName parentName dir slot name i isDirectory stale).named dir slot other ↔
      other = name := by
  unfold create
  simp only [if_neg hdir, and_self, if_true]

theorem create_named_other {d : Id} {t : ℕ} (hd : d ≠ i) (hplace : ¬ (d = dir ∧ t = slot))
    (other : Name) :
    (forest.create selfName parentName dir slot name i isDirectory stale).named d t other ↔
      forest.named d t other := by
  unfold create
  simp only [if_neg hd, if_neg hplace]

theorem create_target_self :
    (forest.create selfName parentName dir slot name i isDirectory stale).target i 0 = some i := by
  simp [create]

theorem create_target_parent :
    (forest.create selfName parentName dir slot name i isDirectory stale).target i 1 =
      some dir := by
  simp [create]

theorem create_target_new {t : ℕ} (ht : 2 ≤ t) :
    (forest.create selfName parentName dir slot name i isDirectory stale).target i t = none := by
  have hzero : t ≠ 0 := by omega
  have hone : t ≠ 1 := by omega
  simp [create, hzero, hone]

theorem create_named_self (other : Name) :
    (forest.create selfName parentName dir slot name i isDirectory stale).named i 0 other ↔
      other = selfName := by
  simp [create]

theorem create_named_parent (other : Name) :
    (forest.create selfName parentName dir slot name i isDirectory stale).named i 1 other ↔
      other = parentName := by
  simp [create]

theorem create_named_new {t : ℕ} (ht : 2 ≤ t) (other : Name) :
    (forest.create selfName parentName dir slot name i isDirectory stale).named i t other ↔
      stale t other := by
  have hzero : t ≠ 0 := by omega
  have hone : t ≠ 1 := by omega
  simp [create, hzero, hone]

/-- The entries after a creation: the new one, and those that were there. -/
theorem create_names_iff (h : forest.Valid root selfName parentName slots)
    (hplace : forest.Place selfName parentName slots dir slot name i) {d j : Id} {t : ℕ} :
    (forest.create selfName parentName dir slot name i isDirectory stale).Names slots d t j ↔
      (d = dir ∧ t = slot ∧ j = i) ∨ forest.Names slots d t j := by
  have hdir : dir ≠ i := fun heq ↦
    hplace.fresh (heq ▸ h.directory_allocated dir hplace.directory)
  have hold (hnames : forest.Names slots d t j) : d ≠ i ∧ ¬ (d = dir ∧ t = slot) := by
    constructor
    · intro heq
      exact hplace.fresh (heq ▸ h.directory_allocated d hnames.directory)
    · rintro ⟨rfl, rfl⟩
      have htarget := hnames.target
      rw [hplace.free] at htarget
      cases htarget
  constructor
  · intro hnames
    by_cases hd : d = i
    · have htarget := hnames.target
      rw [hd, create_target_new hnames.low] at htarget
      cases htarget
    · have hdirectory := (create_directory_of_ne hd).mp hnames.directory
      have htarget := hnames.target
      by_cases hhere : d = dir ∧ t = slot
      · obtain ⟨rfl, rfl⟩ := hhere
        rw [create_target_here hdir] at htarget
        exact Or.inl ⟨rfl, rfl, (Option.some.inj htarget).symm⟩
      · rw [create_target_other hd hhere] at htarget
        exact Or.inr ⟨hdirectory, hnames.low, hnames.high, htarget⟩
  · rintro (⟨rfl, rfl, rfl⟩ | hnames)
    · exact ⟨(create_directory_of_ne hdir).mpr hplace.directory, hplace.low, hplace.high,
        create_target_here hdir⟩
    · obtain ⟨hd, hhere⟩ := hold hnames
      exact ⟨(create_directory_of_ne hd).mpr hnames.directory, hnames.low, hnames.high,
        (create_target_other hd hhere).trans hnames.target⟩

/-- A slot of a new directory carries one name. -/
theorem create_named_new_unique {t : ℕ} {first second : Name}
    (hstale : ∀ t first second, stale t first → stale t second → first = second)
    (hfirst : (forest.create selfName parentName dir slot name i isDirectory stale).named i t first)
    (hsecond :
      (forest.create selfName parentName dir slot name i isDirectory stale).named i t second) :
    first = second := by
  match t with
  | 0 =>
    rw [create_named_self] at hfirst hsecond
    rw [hfirst, hsecond]
  | 1 =>
    rw [create_named_parent] at hfirst hsecond
    rw [hfirst, hsecond]
  | t + 2 =>
    rw [create_named_new (by omega)] at hfirst hsecond
    exact hstale (t + 2) first second hfirst hsecond

/-- The new entry stands before every other slot with its name, and behind none. -/
theorem create_first (h : forest.Valid root selfName parentName slots)
    (hplace : forest.Place selfName parentName slots dir slot name i) {d j : Id} {t : ℕ}
    {other : Name}
    (hnames : (forest.create selfName parentName dir slot name i isDirectory stale).Names slots
      d t j)
    (hnamed : (forest.create selfName parentName dir slot name i isDirectory stale).named d t other)
    {before : ℕ} (hbefore : before < t) :
    ¬ (forest.create selfName parentName dir slot name i isDirectory stale).named d before
      other := by
  have hdir : dir ≠ i := fun heq ↦
    hplace.fresh (heq ▸ h.directory_allocated dir hplace.directory)
  rw [create_names_iff h hplace] at hnames
  rcases hnames with ⟨rfl, rfl, rfl⟩ | hnames
  · rw [create_named_here hdir] at hnamed
    rw [hnamed, create_named_other hdir (by omega)]
    exact hplace.unused_name before (hbefore.trans hplace.high) (hplace.used before hbefore)
  · have hd : d ≠ i := fun heq ↦
      hplace.fresh (heq ▸ h.directory_allocated d hnames.directory)
    have hhere : ¬ (d = dir ∧ t = slot) := by
      rintro ⟨rfl, rfl⟩
      have htarget := hnames.target
      rw [hplace.free] at htarget
      cases htarget
    rw [create_named_other hd hhere] at hnamed
    by_cases hnew : d = dir ∧ before = slot
    · obtain ⟨rfl, rfl⟩ := hnew
      rw [create_named_here hdir]
      rintro rfl
      have hlive : forest.target d t ≠ none := by
        rw [hnames.target]
        exact Option.some_ne_none _
      exact hplace.unused_name t hnames.high hlive hnamed
    · rw [create_named_other hd hnew]
      exact h.first d t j other hnames hnamed before hbefore

theorem Valid.create (h : forest.Valid root selfName parentName slots)
    (hplace : forest.Place selfName parentName slots dir slot name i)
    (hstale : ∀ t first second, stale t first → stale t second → first = second) :
    (forest.create selfName parentName dir slot name i isDirectory stale).Valid root selfName
      parentName slots := by
  have hlow := hplace.low
  have hdir : dir ≠ i := fun heq ↦
    hplace.fresh (heq ▸ h.directory_allocated dir hplace.directory)
  have hold {d : Id} (hd : forest.directory d) : d ≠ i := fun heq ↦
    hplace.fresh (heq ▸ h.directory_allocated d hd)
  -- The slots before the new entry keep their names and are in use.
  have hbefore {d : Id} {t : ℕ} (hd : forest.directory d) (ht : t < 2) (other : Name) :
      (forest.create selfName parentName dir slot name i isDirectory stale).named d t other ↔
        forest.named d t other :=
    create_named_other (hold hd) (by omega) other
  constructor
  case root_directory =>
    exact (create_directory_of_ne (hold h.root_directory)).mpr h.root_directory
  case directory_allocated =>
    intro d hd
    by_cases hi : d = i
    · exact Or.inl hi
    · exact Or.inr (h.directory_allocated d ((create_directory_of_ne hi).mp hd))
  case name_unique =>
    intro d t first second hd hfirst hsecond
    by_cases hi : d = i
    · rw [hi] at hfirst hsecond
      exact create_named_new_unique hstale hfirst hsecond
    · by_cases hhere : d = dir ∧ t = slot
      · obtain ⟨rfl, rfl⟩ := hhere
        rw [create_named_here hdir] at hfirst hsecond
        rw [hfirst, hsecond]
      · rw [create_named_other hi hhere] at hfirst hsecond
        exact h.name_unique d t first second ((create_directory_of_ne hi).mp hd) hfirst hsecond
  case self_entry =>
    intro d hd
    by_cases hi : d = i
    · rw [hi]
      exact ⟨(create_named_self selfName).mpr rfl, create_target_self⟩
    · have hd' := (create_directory_of_ne hi).mp hd
      rw [hbefore hd' (by decide), create_target_other hi (by omega)]
      exact h.self_entry d hd'
  case parent_entry =>
    intro d hd
    by_cases hi : d = i
    · rw [hi]
      exact ⟨(create_named_parent parentName).mpr rfl, dir, create_target_parent,
        (create_directory_of_ne hdir).mpr hplace.directory⟩
    · have hd' := (create_directory_of_ne hi).mp hd
      obtain ⟨hnamed, above, htarget, habove⟩ := h.parent_entry d hd'
      rw [hbefore hd' (by decide), create_target_other hi (by omega)]
      exact ⟨hnamed, above, htarget, (create_directory_of_ne (hold habove)).mpr habove⟩
  case entry =>
    intro d t j hnames
    rw [create_names_iff h hplace] at hnames
    rcases hnames with ⟨rfl, rfl, rfl⟩ | hnames
    · refine ⟨fun heq ↦ hold h.root_directory heq.symm, Or.inl rfl, name, ?_,
        hplace.name_ne_self, hplace.name_ne_parent⟩
      exact (create_named_here hdir name).mpr rfl
    · obtain ⟨hroot, hallocated, other, hnamed, hother⟩ := h.entry d t j hnames
      have hhere : ¬ (d = dir ∧ t = slot) := by
        rintro ⟨rfl, rfl⟩
        have htarget := hnames.target
        rw [hplace.free] at htarget
        cases htarget
      exact ⟨hroot, Or.inr hallocated, other,
        (create_named_other (hold hnames.directory) hhere other).mpr hnamed, hother⟩
  case first =>
    intro d t j other hnames hnamed before hlt
    exact create_first h hplace hnames hnamed hlt
  case named_by =>
    intro j hj hroot
    rcases hj with rfl | hj
    · exact ⟨dir, slot, (create_names_iff h hplace).mpr (Or.inl ⟨rfl, rfl, rfl⟩)⟩
    · obtain ⟨d, t, hnames⟩ := h.named_by j hj hroot
      exact ⟨d, t, (create_names_iff h hplace).mpr (Or.inr hnames)⟩
  case named_once =>
    intro d t d' t' j hfirst hsecond
    rw [create_names_iff h hplace] at hfirst hsecond
    rcases hfirst with ⟨rfl, rfl, rfl⟩ | hfirst
    · rcases hsecond with ⟨rfl, rfl, -⟩ | hsecond
      · exact ⟨rfl, rfl⟩
      · exact absurd (h.entry _ _ _ hsecond).2.1 hplace.fresh
    · rcases hsecond with ⟨rfl, rfl, rfl⟩ | hsecond
      · exact absurd (h.entry _ _ _ hfirst).2.1 hplace.fresh
      · exact h.named_once d t d' t' j hfirst hsecond

/-! ## Removing an object -/

/-- The entry of `i` becomes free and keeps its name. -/
def remove (forest : Forest Id Name) (dir : Id) (slot : ℕ) (i : Id) : Forest Id Name where
  allocated j := j ≠ i ∧ forest.allocated j
  directory := forest.directory
  target d t := if d = dir ∧ t = slot then none else forest.target d t
  named := forest.named

theorem remove_target_other {d : Id} {t : ℕ} (hplace : ¬ (d = dir ∧ t = slot)) :
    (forest.remove dir slot i).target d t = forest.target d t :=
  if_neg hplace

theorem remove_names_iff {d j : Id} {t : ℕ} :
    (forest.remove dir slot i).Names slots d t j ↔
      ¬ (d = dir ∧ t = slot) ∧ forest.Names slots d t j := by
  constructor
  · intro hnames
    have htarget := hnames.target
    by_cases hhere : d = dir ∧ t = slot
    · unfold remove at htarget
      simp only [if_pos hhere] at htarget
      cases htarget
    · rw [remove_target_other hhere] at htarget
      exact ⟨hhere, hnames.directory, hnames.low, hnames.high, htarget⟩
  · rintro ⟨hhere, hnames⟩
    exact ⟨hnames.directory, hnames.low, hnames.high,
      (remove_target_other hhere).trans hnames.target⟩

theorem Valid.remove (h : forest.Valid root selfName parentName slots)
    (hnames : forest.Names slots dir slot i) (hfile : ¬ forest.directory i) :
    (forest.remove dir slot i).Valid root selfName parentName slots := by
  have hlow := hnames.low
  constructor
  case root_directory => exact h.root_directory
  case directory_allocated =>
    intro d hd
    exact ⟨fun heq ↦ hfile (heq ▸ hd), h.directory_allocated d hd⟩
  case name_unique => exact h.name_unique
  case self_entry =>
    intro d hd
    rw [remove_target_other (by omega)]
    exact h.self_entry d hd
  case parent_entry =>
    intro d hd
    rw [remove_target_other (by omega)]
    exact h.parent_entry d hd
  case entry =>
    intro d t j hentry
    rw [remove_names_iff] at hentry
    obtain ⟨hhere, hentry⟩ := hentry
    obtain ⟨hroot, hallocated, hname⟩ := h.entry d t j hentry
    refine ⟨hroot, ⟨?_, hallocated⟩, hname⟩
    rintro rfl
    exact hhere (h.named_once d t dir slot j hentry hnames)
  case first =>
    intro d t j name hentry
    exact h.first d t j name (remove_names_iff.mp hentry).2
  case named_by =>
    rintro j ⟨hne, hj⟩ hroot
    obtain ⟨d, t, hentry⟩ := h.named_by j hj hroot
    refine ⟨d, t, remove_names_iff.mpr ⟨?_, hentry⟩⟩
    rintro ⟨rfl, rfl⟩
    exact hne (Option.some.inj (hentry.target.symm.trans hnames.target))
  case named_once =>
    intro d t d' t' j hfirst hsecond
    exact h.named_once d t d' t' j (remove_names_iff.mp hfirst).2 (remove_names_iff.mp hsecond).2

end Update

end Forest

end OS537
