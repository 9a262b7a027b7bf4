import Mathlib.Data.List.Induction
import Mathlib.Data.List.Nodup
import RuleFilter.Proofs.Entries
import RuleFilter.Schema.Basic

/-!
Schemas as ordered maps. The index and the fields are changed together: what is put under a name is
found under it, in the place of the name, and an index never leads out of the fields or to one of
another name.
-/

namespace RuleFilter

namespace Schema

/-- The index leads from a name to a field of that name, and to every field. -/
structure Indexed (s : Schema) : Prop where
  leads : ∀ name i, Entries.value? s.index name = some i →
    ∃ f, s.fields[i]? = some f ∧ f.name = name
  led : ∀ i f, s.fields[i]? = some f → Entries.value? s.index f.name = some i

variable {s : Schema} {name : String} {f : Field} {i : Nat}

theorem indexed_empty (entity : String) : Indexed { entity } where
  leads _ _ h := nomatch h
  led _ _ h := nomatch h

namespace Indexed

theorem lt_length (h : s.Indexed) (hi : Entries.value? s.index name = some i) :
    i < s.fields.length := by
  obtain ⟨f, hf, -⟩ := h.leads name i hi
  exact (List.getElem?_eq_some_iff.1 hf).1

theorem name_unique (h : s.Indexed) {other : String}
    (hname : Entries.value? s.index name = some i)
    (hother : Entries.value? s.index other = some i) : name = other := by
  obtain ⟨f, hf, rfl⟩ := h.leads name i hname
  obtain ⟨g, hg, rfl⟩ := h.leads other i hother
  rw [Option.some.inj (hf.symm.trans hg)]

theorem nodup_names (h : s.Indexed) : (s.fields.map Field.name).Nodup := by
  rw [List.nodup_iff_getElem?_ne_getElem?]
  intro i j hij hj heq
  rw [List.length_map] at hj
  have hi : i < s.fields.length := Nat.lt_trans hij hj
  rw [List.getElem?_map, List.getElem?_map, List.getElem?_eq_getElem hi,
    List.getElem?_eq_getElem hj, Option.map_some, Option.map_some, Option.some.injEq] at heq
  have hplace := h.led i _ (List.getElem?_eq_getElem hi)
  rw [heq, h.led j _ (List.getElem?_eq_getElem hj), Option.some.injEq] at hplace
  omega

theorem field?_eq_some_iff (h : s.Indexed) :
    s.field? name = some f ↔ f ∈ s.fields ∧ f.name = name := by
  rw [field?, Option.bind_eq_some_iff]
  constructor
  · rintro ⟨i, hi, hf⟩
    obtain ⟨g, hg, hname⟩ := h.leads name i hi
    obtain rfl := Option.some.inj (hf.symm.trans hg)
    exact ⟨List.mem_of_getElem? hf, hname⟩
  · rintro ⟨hf, rfl⟩
    obtain ⟨i, hi⟩ := List.getElem?_of_mem hf
    exact ⟨i, h.led i f hi, hi⟩

theorem value?_eq_none_iff (h : s.Indexed) :
    Entries.value? s.index name = none ↔ name ∉ s.fields.map Field.name := by
  constructor
  · intro hnone hmem
    obtain ⟨f, hf, rfl⟩ := List.mem_map.1 hmem
    obtain ⟨i, hi⟩ := List.getElem?_of_mem hf
    rw [h.led i f hi] at hnone
    cases hnone
  · intro hmem
    rw [Option.eq_none_iff_forall_ne_some]
    intro i hi
    obtain ⟨f, hf, hname⟩ := h.leads name i hi
    exact hmem (List.mem_map.2 ⟨f, List.mem_of_getElem? hf, hname⟩)

end Indexed

theorem put_of_some (hi : Entries.value? s.index f.name = some i) :
    s.put f = { s with fields := s.fields.set i f } := by
  rw [put, hi]

theorem put_of_none (hnone : Entries.value? s.index f.name = none) :
    s.put f =
      { s with
        fields := s.fields ++ [f], index := Entries.put s.index f.name s.fields.length } := by
  rw [put, hnone]

/-- A field that takes the place of another has its name, so that the index stays as it is. -/
theorem Indexed.put_of_some (h : s.Indexed) (hi : Entries.value? s.index f.name = some i) :
    (s.put f).Indexed := by
  rw [Schema.put_of_some hi]
  constructor
  · intro name j hj
    by_cases hij : i = j
    · subst hij
      exact ⟨f, List.getElem?_set_self (h.lt_length hi), h.name_unique hi hj⟩
    · rw [List.getElem?_set_ne hij]
      exact h.leads name j hj
  · intro j g hg
    by_cases hij : i = j
    · subst hij
      rw [List.getElem?_set_self (h.lt_length hi), Option.some.injEq] at hg
      rwa [← hg]
    · rw [List.getElem?_set_ne hij] at hg
      exact h.led j g hg

/-- A field at the end is the only one of its name. -/
theorem Indexed.put_of_none (h : s.Indexed) (hnone : Entries.value? s.index f.name = none) :
    (s.put f).Indexed := by
  rw [Schema.put_of_none hnone]
  constructor
  · intro name j hj
    by_cases hname : name = f.name
    · subst hname
      rw [Entries.value?_put_self, Option.some.injEq] at hj
      subst hj
      exact ⟨f, List.getElem?_concat_length, rfl⟩
    · rw [Entries.value?_put_of_ne _ _ hname] at hj
      rw [List.getElem?_append_left (h.lt_length hj)]
      exact h.leads name j hj
  · intro j g hg
    by_cases hj : j < s.fields.length
    · rw [List.getElem?_append_left hj] at hg
      have hplace := h.led j g hg
      have hname : g.name ≠ f.name := by
        intro heq
        rw [heq, hnone] at hplace
        cases hplace
      rwa [Entries.value?_put_of_ne _ _ hname]
    · rw [List.getElem?_append_right (Nat.le_of_not_lt hj), List.getElem?_singleton] at hg
      split at hg
      · obtain rfl := Option.some.inj hg
        rw [Entries.value?_put_self, Option.some.injEq]
        omega
      · cases hg

theorem Indexed.put (h : s.Indexed) (f : Field) : (s.put f).Indexed := by
  cases hi : Entries.value? s.index f.name with
  | some i => exact h.put_of_some hi
  | none => exact h.put_of_none hi

theorem Indexed.foldl_put (h : s.Indexed) (puts : List Field) :
    (puts.foldl Schema.put s).Indexed := by
  induction puts generalizing s with
  | nil => exact h
  | cons f puts ih => exact ih (h.put f)

theorem field?_put_self (h : s.Indexed) (f : Field) : (s.put f).field? f.name = some f := by
  cases hi : Entries.value? s.index f.name with
  | some i =>
    rw [put_of_some hi, field?, hi, Option.bind_some, List.getElem?_set_self (h.lt_length hi)]
  | none =>
    rw [put_of_none hi, field?, Entries.value?_put_self, Option.bind_some,
      List.getElem?_concat_length]

theorem field?_put_of_ne (h : s.Indexed) (hname : name ≠ f.name) :
    (s.put f).field? name = s.field? name := by
  cases hi : Entries.value? s.index f.name with
  | some i =>
    rw [put_of_some hi, field?, field?]
    refine Option.bind_congr fun j hj => ?_
    refine List.getElem?_set_ne fun hij => hname ?_
    exact h.name_unique hj (hij ▸ hi)
  | none =>
    rw [put_of_none hi, field?, field?, Entries.value?_put_of_ne _ _ hname]
    refine Option.bind_congr fun j hj => ?_
    exact List.getElem?_append_left (h.lt_length hj)

/-- A name keeps its place, and a new one comes last. -/
theorem names_put (h : s.Indexed) (f : Field) : (s.put f).fields.map Field.name =
    if f.name ∈ s.fields.map Field.name then s.fields.map Field.name
    else s.fields.map Field.name ++ [f.name] := by
  cases hi : Entries.value? s.index f.name with
  | some i =>
    obtain ⟨g, hg, hname⟩ := h.leads f.name i hi
    rw [if_pos (List.mem_map.2 ⟨g, List.mem_of_getElem? hg, hname⟩), put_of_some hi, List.map_set]
    have hplace : (s.fields.map Field.name)[i]? = some f.name := by
      rw [List.getElem?_map, hg, Option.map_some, hname]
    obtain ⟨hlt, hplace⟩ := List.getElem?_eq_some_iff.1 hplace
    rw [← hplace, List.set_getElem_self]
  | none =>
    rw [if_neg (h.value?_eq_none_iff.1 hi), put_of_none hi, List.map_append, List.map_singleton]

theorem field?_foldl_put (h : s.Indexed) (puts : List Field) (name : String) :
    (puts.foldl put s).field? name = (puts.reverse.find? (·.name == name)).or (s.field? name) := by
  induction puts generalizing s with
  | nil => rfl
  | cons f puts ih =>
    rw [List.foldl_cons, ih (h.put f), List.reverse_cons, List.find?_append, Option.or_assoc]
    congr 1
    by_cases hname : name = f.name
    · subst hname
      simp [field?_put_self h]
    · rw [field?_put_of_ne h hname, List.find?_singleton, if_neg (by simpa using Ne.symm hname),
        Option.none_or]

theorem names_foldl_put (entity : String) (puts : List Field) :
    (puts.foldl put { entity }).fields.map Field.name = (puts.map Field.name).eraseDups := by
  -- The last field put is split off, since it is the one whose name may have come before.
  induction puts using List.reverseRecOn with
  | nil => rfl
  | append_singleton puts f ih =>
    rw [List.foldl_append, List.foldl_cons, List.foldl_nil,
      names_put ((indexed_empty entity).foldl_put puts), ih, List.map_append, List.map_singleton,
      Entries.eraseDups_concat]
    simp only [List.mem_eraseDups]

/-- However fields are put, a schema maps each name to the field last put under it and lists these
fields once each, in the order in which their names first came; its index is right about all of
them. -/
theorem ordered_map_of_puts (entity : String) (puts : List Field) :
    let s := puts.foldl put { entity }
    (∀ name, s.field? name = puts.reverse.find? (·.name == name)) ∧
      (s.fields.map Field.name).Nodup ∧
      s.fields.map some = (puts.map Field.name).eraseDups.map s.field? ∧
      (∀ name f, s.field? name = some f → f.name = name) ∧
      s.Indexed ∧ ∀ name i, Entries.value? s.index name = some i → i < s.fields.length := by
  intro s
  have hindexed : s.Indexed := (indexed_empty entity).foldl_put puts
  refine ⟨fun name => ?_, hindexed.nodup_names, ?_, fun name f hf => ?_, hindexed,
    fun name i hi => hindexed.lt_length hi⟩
  · rw [field?_foldl_put (indexed_empty entity)]
    exact Option.or_none
  · rw [← names_foldl_put entity puts, List.map_map]
    refine List.map_congr_left fun f hf => ?_
    exact (hindexed.field?_eq_some_iff.2 ⟨hf, rfl⟩).symm
  · exact (hindexed.field?_eq_some_iff.1 hf).2

end Schema

end RuleFilter
