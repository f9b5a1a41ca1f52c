import Reckoner.Registry
import Mathlib.Data.List.Nodup
import Mathlib.Data.List.Perm.Basic

/-! Names and slots match, and a slot belongs to one name for ever: what a definition and a deletion do to a
registry, slot by slot and name by name. -/
namespace Reckoner.Registry
variable {α : Type} {r r' r'' : Registry α} {name other : Text} {slot i : Nat}

/-- A name is listed once, with the slot that holds it. -/
structure Exact (r : Registry α) : Prop where
  nodup : (r.names.map Prod.fst).Nodup
  mem_iff (name : Text) (slot : Nat) : (name, slot) ∈ r.names ↔ r.name? slot = some name

/-- What may become of a registry: the slots that are there stay, an empty one stays empty, and none changes
its name. -/
structure Evolves (r r' : Registry α) : Prop where
  length_le : r.slots.length ≤ r'.slots.length
  empty (slot : Nat) : slot < r.slots.length → r.entry? slot = none → r'.entry? slot = none
  name_eq (slot : Nat) (name other : Text) : r.name? slot = some name → r'.name? slot = some other → other = name

theorem name?_eq_some_iff : r.name? slot = some name ↔ ∃ a, r.entry? slot = some (name, a) := by
  unfold name?
  constructor
  · intro h
    obtain ⟨⟨name', a⟩, he, rfl⟩ := Option.map_eq_some_iff.mp h
    exact ⟨a, he⟩
  · rintro ⟨a, he⟩
    rw [he]
    rfl

private theorem name?_eq_none_iff : r.name? slot = none ↔ r.entry? slot = none := Option.map_eq_none_iff

theorem lt_length_of_name? (h : r.name? slot = some name) : slot < r.slots.length := by
  obtain ⟨a, he⟩ := name?_eq_some_iff.mp h
  obtain ⟨hlt, -⟩ := List.getElem?_eq_some_iff.mp (Option.join_eq_some_iff.mp he)
  exact hlt

private theorem entry?_eq_none_of_length_le (h : r.slots.length ≤ slot) : r.entry? slot = none := by
  unfold entry?
  rw [List.getElem?_eq_none h]
  rfl

theorem entry?_insert (hs : slot ≤ r.slots.length) (name : Text) (a : α) (i : Nat) :
    entry? (r.insert slot name a) i = if i = slot then some (name, a) else r.entry? i := by
  unfold insert entry?
  simp only
  rcases Nat.lt_or_eq_of_le hs with hlt | rfl
  · rw [if_pos hlt, List.getElem?_set]
    by_cases hi : i = slot
    · simp [hi, hlt]
    · simp [hi, Ne.symm hi]
  · rw [if_neg (Nat.lt_irrefl _), List.getElem?_append]
    rcases Nat.lt_trichotomy i r.slots.length with hi | rfl | hi
    · simp [hi, Nat.ne_of_lt hi]
    · simp
    · have hnone : r.slots[i]? = none := List.getElem?_eq_none (Nat.le_of_lt hi)
      have hlast : [some (name, a)][i - r.slots.length]? = none := List.getElem?_eq_none (by simp; omega)
      simp [Nat.not_lt_of_lt hi, Nat.ne_of_gt hi, hlast]

theorem entry?_remove (name : Text) (i : Nat) :
    entry? (r.remove name).2 i = if r.lookup name = some i then none else r.entry? i := by
  unfold remove
  split
  · rename_i hnone
    rw [hnone, if_neg nofun]
  · rename_i slot hslot
    unfold entry?
    simp only [hslot, List.getElem?_set, Option.some.injEq]
    by_cases hi : slot = i
    · subst hi
      by_cases hlt : slot < r.slots.length
      · simp [hlt]
      · simp [hlt]
    · simp [hi]

private theorem length_insert_le (slot : Nat) (name : Text) (a : α) :
    r.slots.length ≤ (r.insert slot name a).slots.length := by
  unfold insert
  simp only
  split
  · exact Nat.le_of_eq List.length_set.symm
  · rw [List.length_append]
    exact Nat.le_add_right _ _

private theorem length_remove (name : Text) : (r.remove name).2.slots.length = r.slots.length := by
  unfold remove
  split
  · rfl
  · exact List.length_set

private theorem mem_names_remove (hl : r.lookup name = some slot) (other : Text) (i : Nat) :
    (other, i) ∈ (r.remove name).2.names ↔ other ≠ name ∧ (other, i) ∈ r.names := by
  simp only [remove, hl, List.mem_filter, decide_eq_true_eq, and_comm]

namespace Exact

theorem empty : Exact ({} : Registry α) where
  nodup := List.nodup_nil
  mem_iff name slot := by simp [name?, entry?]

/-- A name is found in a slot exactly when it is live there. -/
theorem lookup_iff (h : r.Exact) (name : Text) (slot : Nat) :
    r.lookup name = some slot ↔ r.name? slot = some name := by
  rw [← h.mem_iff, lookup, List.lookup_eq_some_iff]
  constructor
  · rintro ⟨before, after, hnames, -⟩
    simp [hnames]
  · intro hmem
    obtain ⟨before, after, hnames⟩ := List.append_of_mem hmem
    refine ⟨before, after, hnames, ?_⟩
    -- the name is not listed a second time in front
    have hnodup := h.nodup
    rw [hnames, List.map_append, List.map_cons, List.nodup_append] at hnodup
    intro p hp
    have hne := hnodup.2.2 p.1 (List.mem_map_of_mem hp) name List.mem_cons_self
    simpa using Ne.symm hne

private theorem mem_names_insert (h : r.Exact) (slot : Nat) (name : Text) (a : α) (other : Text) (i : Nat) :
    (other, i) ∈ (r.insert slot name a).names ↔
      other = name ∧ i = slot ∨ other ≠ name ∧ (other, i) ∈ r.names := by
  by_cases hl : r.lookup name = some slot
  · -- the name has the slot already, and no other one
    rw [Registry.insert, if_pos hl, h.mem_iff, ← h.lookup_iff]
    constructor
    · intro hlive
      by_cases ho : other = name
      · subst ho
        exact .inl ⟨rfl, Option.some.inj (hlive.symm.trans hl)⟩
      · exact .inr ⟨ho, hlive⟩
    · rintro (⟨rfl, rfl⟩ | ⟨-, hmem⟩)
      · exact hl
      · exact hmem
  · simp only [Registry.insert, if_neg hl, List.mem_cons, Prod.mk.injEq, List.mem_filter, decide_eq_true_eq, and_comm]

theorem reserve_le (h : r.Exact) (name : Text) : r.reserve name ≤ r.slots.length := by
  unfold reserve
  cases hl : r.lookup name with
  | none => exact Nat.le_refl _
  | some slot => exact Nat.le_of_lt (lt_length_of_name? ((h.lookup_iff name slot).mp hl))

/-- The slot that a name is given holds that name already, or it is a new one. -/
theorem name?_reserve (h : r.Exact) (name : Text) :
    r.name? (r.reserve name) = some name ∨ r.lookup name = none ∧ r.name? (r.reserve name) = none := by
  unfold reserve
  cases hl : r.lookup name with
  | none => exact .inr ⟨rfl, name?_eq_none_iff.mpr (entry?_eq_none_of_length_le (Nat.le_refl _))⟩
  | some slot => exact .inl ((h.lookup_iff name slot).mp hl)

theorem name?_insert (h : r.Exact) (name : Text) (a : α) (i : Nat) :
    (r.insert (r.reserve name) name a).name? i = if i = r.reserve name then some name else r.name? i := by
  rw [name?, entry?_insert (h.reserve_le name)]
  split <;> rfl

private theorem name?_remove (h : r.Exact) (name : Text) (i : Nat) :
    (r.remove name).2.name? i = if r.name? i = some name then none else r.name? i := by
  rw [name?, entry?_remove]
  by_cases hl : r.lookup name = some i
  · rw [if_pos hl, if_pos ((h.lookup_iff name i).mp hl)]
    rfl
  · rw [if_neg hl, if_neg (mt (h.lookup_iff name i).mpr hl)]
    rfl

theorem insert (h : r.Exact) (name : Text) (a : α) : (r.insert (r.reserve name) name a).Exact where
  nodup := by
    unfold Registry.insert
    simp only
    split
    · exact h.nodup
    · have hfilter : ((r.names.filter (·.1 ≠ name)).map Prod.fst).Nodup :=
        h.nodup.sublist (List.filter_sublist.map Prod.fst)
      refine List.nodup_cons.mpr ⟨?_, hfilter⟩
      intro hmem
      obtain ⟨p, hp, hname⟩ := List.mem_map.mp hmem
      have hne : p.1 ≠ name := of_decide_eq_true (List.mem_filter.mp hp).2
      exact hne hname
  mem_iff other i := by
    rw [h.mem_names_insert, h.name?_insert, h.mem_iff]
    by_cases hi : i = r.reserve name
    · rw [if_pos hi]
      subst hi
      rcases h.name?_reserve name with hold | ⟨-, hnew⟩
      · rw [hold]
        by_cases ho : other = name
        · simp [ho]
        · simp [ho, Ne.symm ho]
      · rw [hnew]
        simp [eq_comm]
    · rw [if_neg hi]
      by_cases ho : other = name
      · subst ho
        -- a name that is live elsewhere would have been given that slot
        have hother : r.name? i ≠ some other := by
          intro hlive
          have hl := (h.lookup_iff other i).mpr hlive
          exact hi (by simp [reserve, hl])
        simp [hi, hother]
      · simp [ho]

/-- Setting a name that is live, or a new one, puts the object where the name is or will be. -/
theorem set_eq (h : r.Exact) (name : Text) (a : α) :
    r.set name a = (r.reserve name, r.insert (r.reserve name) name a) := by
  cases hl : r.lookup name with
  | none =>
    have hlive : r.live? name = none := by simp [live?, hl]
    have hslot : r.reserve name = r.slots.length := by simp [reserve, hl]
    rw [set, hlive, hslot]
    simp [Registry.insert, hl]
  | some slot =>
    have hname := (h.lookup_iff name slot).mp hl
    have hlive : r.live? name = some (slot, name) := by simp [live?, hl, hname]
    have hslot : r.reserve name = slot := by simp [reserve, hl]
    rw [set, hlive, hslot]
    simp [Registry.insert, hl, lt_length_of_name? hname]

theorem remove (h : r.Exact) (name : Text) : (r.remove name).2.Exact := by
  cases hl : r.lookup name with
  | none =>
    unfold Registry.remove
    rw [hl]
    exact h
  | some slot =>
    refine ⟨?_, fun other i => ?_⟩
    · unfold Registry.remove
      rw [hl]
      exact h.nodup.sublist (List.filter_sublist.map Prod.fst)
    · rw [mem_names_remove hl, h.name?_remove, h.mem_iff]
      by_cases ho : other = name
      · subst ho
        simp
      · split
        · rename_i hlive
          rw [hlive]
          simp [Ne.symm ho]
        · simp [ho]

/-- What fails to remove anything changes nothing: a name is only taken out together with its object. -/
theorem remove_of_isNone (h : r.Exact) (name : Text) (hnone : (r.remove name).1.isNone) : (r.remove name).2 = r := by
  unfold Registry.remove at hnone ⊢
  cases hl : r.lookup name with
  | none => rfl
  | some slot =>
    obtain ⟨a, he⟩ := name?_eq_some_iff.mp ((h.lookup_iff name slot).mp hl)
    rw [hl] at hnone
    simp [he] at hnone

/-- There are as many names as live slots. -/
theorem size_eq (h : r.Exact) : r.size = r.slots.countP Option.isSome := by
  let live := r.slots.zipIdx.filter (·.1.isSome)
  have hnames : (r.names.map Prod.snd).Nodup := by
    refine (List.Nodup.of_map Prod.fst h.nodup).map_on ?_
    rintro ⟨name, slot⟩ hp ⟨other, i⟩ hq hslot
    obtain rfl : slot = i := hslot
    have hname := ((h.mem_iff name slot).mp hp).symm.trans ((h.mem_iff other slot).mp hq)
    rw [Option.some.inj hname]
  have hlive : (live.map Prod.snd).Nodup := by
    have hsub : (live.map Prod.snd).Sublist (r.slots.zipIdx.map Prod.snd) := List.filter_sublist.map Prod.snd
    refine List.Nodup.sublist hsub ?_
    rw [List.zipIdx_map_snd]
    exact List.nodup_range'
  have hperm : (r.names.map Prod.snd).Perm (live.map Prod.snd) := by
    refine (List.perm_ext_iff_of_nodup hnames hlive).mpr fun slot => ?_
    simp only [live, List.mem_map, List.mem_filter, List.mem_zipIdx_iff_getElem?, Prod.exists,
      exists_eq_right, h.mem_iff, name?_eq_some_iff, entry?, Option.join_eq_some_iff]
    constructor
    · rintro ⟨name, a, hslot⟩
      exact ⟨some (name, a), hslot, rfl⟩
    · rintro ⟨_ | ⟨name, a⟩, hslot, hsome⟩
      · exact nomatch hsome
      · exact ⟨name, a, hslot⟩
  have hlength := hperm.length_eq
  rw [List.length_map, List.length_map, ← List.countP_eq_length_filter] at hlength
  have hslots := congrArg (List.countP Option.isSome) (List.zipIdx_map_fst 0 r.slots)
  rw [List.countP_map] at hslots
  exact hlength.trans hslots

end Exact

namespace Evolves

theorem refl (r : Registry α) : r.Evolves r where
  length_le := Nat.le_refl _
  empty _ _ h := h
  name_eq _ _ _ h h' := Option.some.inj (h'.symm.trans h)

theorem trans (h : r.Evolves r') (h' : r'.Evolves r'') : r.Evolves r'' where
  length_le := Nat.le_trans h.length_le h'.length_le
  empty slot hlt he := h'.empty slot (Nat.lt_of_lt_of_le hlt h.length_le) (h.empty slot hlt he)
  name_eq slot name other hn ho := by
    cases hmid : r'.name? slot with
    | none =>
      have hlt := Nat.lt_of_lt_of_le (lt_length_of_name? hn) h.length_le
      rw [name?_eq_none_iff.mpr (h'.empty slot hlt (name?_eq_none_iff.mp hmid))] at ho
      exact nomatch ho
    | some middle =>
      rw [h'.name_eq slot middle other hmid ho]
      exact h.name_eq slot name middle hn hmid

theorem insert (h : r.Exact) (name : Text) (a : α) : r.Evolves (r.insert (r.reserve name) name a) where
  length_le := length_insert_le _ _ _
  empty slot hlt he := by
    rw [entry?_insert (h.reserve_le name), if_neg, he]
    rintro rfl
    -- the slot of a live name is not empty, and a new one lies behind the last
    rcases h.name?_reserve name with hlive | ⟨hl, -⟩
    · rw [name?_eq_none_iff.mpr he] at hlive
      exact nomatch hlive
    · simp [reserve, hl] at hlt
  name_eq slot old other hn ho := by
    rw [h.name?_insert] at ho
    split at ho
    · rename_i hslot
      obtain rfl := Option.some.inj ho
      rcases h.name?_reserve name with hlive | ⟨-, hnew⟩
      · rw [← hslot, hn] at hlive
        exact (Option.some.inj hlive).symm
      · rw [← hslot, hn] at hnew
        exact nomatch hnew
    · exact Option.some.inj (ho.symm.trans hn)

theorem remove (h : r.Exact) (name : Text) : r.Evolves (r.remove name).2 where
  length_le := Nat.le_of_eq (length_remove name).symm
  empty slot _ he := by
    rw [entry?_remove, he, ite_self]
  name_eq slot old other hn ho := by
    rw [h.name?_remove] at ho
    split at ho
    · exact nomatch ho
    · exact Option.some.inj (ho.symm.trans hn)

/-- A slot that held a name holds it still, or is empty for good. -/
theorem name?_or_empty (h : r.Evolves r') (hn : r.name? slot = some name) :
    r'.name? slot = some name ∨ r'.entry? slot = none := by
  cases ho : r'.name? slot with
  | none => exact .inr (name?_eq_none_iff.mp ho)
  | some other => exact .inl (congrArg some (h.name_eq slot name other hn ho))

end Evolves

/-- A definition leaves every live name where it is. -/
theorem Exact.lookup_insert (h : r.Exact) (name : Text) (a : α) (hl : r.lookup other = some slot) :
    (r.insert (r.reserve name) name a).lookup other = some slot := by
  rw [(h.insert name a).lookup_iff, h.name?_insert]
  have hlive := (h.lookup_iff other slot).mp hl
  split
  · rename_i hslot
    rcases h.name?_reserve name with hold | ⟨-, hnew⟩
    · rwa [← hold, ← hslot]
    · rw [← hslot, hlive] at hnew
      exact nomatch hnew
  · exact hlive

/-- A definition leaves what every other name stands for. -/
theorem lookup_insert_of_ne (hne : other ≠ name) (slot : Nat) (a : α) :
    (r.insert slot name a).lookup other = r.lookup other := by
  have hfilter (names : List (Text × Nat)) : (names.filter (·.1 ≠ name)).lookup other = names.lookup other := by
    induction names with
    | nil => rfl
    | cons entry names ih =>
      obtain ⟨key, i⟩ := entry
      rw [List.filter_cons, List.lookup_cons]
      by_cases hkey : key = name
      · have hother : (other == key) = false := by simp [hkey, hne]
        simp only [hkey, ne_eq, not_true_eq_false, decide_false, Bool.false_eq_true, if_false]
        rw [ih, ← hkey, hother]
      · simp only [ne_eq, hkey, not_false_eq_true, decide_true, if_true]
        rw [List.lookup_cons, ih]
  have hother : (other == name) = false := by simp [hne]
  rw [lookup, insert]
  simp only
  split
  · rfl
  · rw [List.lookup_cons, hother]
    exact hfilter r.names

/-- A live name keeps its slot to itself. -/
theorem Exact.ne_reserve (h : r.Exact) {slot : Nat} (hne : other ≠ name) (hl : r.lookup other = some slot) :
    slot ≠ r.reserve name := by
  rintro rfl
  have hlive := (h.lookup_iff other _).mp hl
  rcases h.name?_reserve name with hold | ⟨-, hnew⟩
  · rw [hlive] at hold
    exact hne (Option.some.inj hold)
  · rw [hlive] at hnew
    exact nomatch hnew

/-- A deletion leaves every other live name where it is. -/
theorem Exact.lookup_remove (h : r.Exact) (hne : other ≠ name) (hl : r.lookup other = some slot) :
    (r.remove name).2.lookup other = some slot := by
  rw [(h.remove name).lookup_iff, h.name?_remove, (h.lookup_iff other slot).mp hl, if_neg]
  intro he
  exact hne (Option.some.inj he)

end Reckoner.Registry
